import Atlantide.Core.Native

/-! # Marker form and live form

A property is resolved in either form: as the object holds it when the provider is called, as the
row keeps it when the record of what it was given is taken. The two come to the same value unless a
set's elements stand in another order by what they resolve to than by their markers, or an operand
prints a handle that only one of the forms keeps as an object. -/

namespace Atlantide

open Canonical Sorting

namespace Native

/-- The `Ref` a strict `{"$ref": "node_id#attr"}` marker stands for. -/
def refFromMarker : Native → Option Ref
  | .dict [(key, .str target)] =>
    if key = .str refKey then
      match partition '#' target with
      | (nodeId, some attr) => some ⟨nodeId, attr⟩
      | (_, none) => none
    else none
  | _ => none

def isTransformMarker : Native → Bool
  | .dict [(key, .dict body)] =>
    key = .str transformKey && (body.lookup (.str "op")).isSome &&
      (body.lookup (.str "args")).isSome
  | _ => false

section

variable (printing : Printing) (outputs : Ref → Option Native)

/-- What iterating a joined value gives. -/
def iterated : Native → Option (List Native)
  | .list items | .tuple items | .set items => some items
  | .str text => some (text.toList.map fun c => .str (String.singleton c))
  | .dict fields => some (fields.map fun entry => .str entry.1.text)
  | _ => none

/-- The allowlisted operations over resolved operands. -/
def evalTransform (op : String) (operands : List Native) : Option Native :=
  match op, operands with
  | "concat", parts => some (.str (String.join (parts.map printing.str)))
  | "interpolate", template :: args => (printing.format (printing.str template) args).map .str
  | "join", separator :: parts :: _ =>
    (iterated parts).map fun parts =>
      .str ((printing.str separator).intercalate (parts.map printing.str))
  | _, _ => none

mutual

/-- Replaces every reference and evaluates every transform, in either form. -/
def resolve : Native → Option Native
  | .list items | .tuple items => (resolveItems items).map .list
  | .set items => (resolveItems items).map fun found =>
      .list (sortBy (orderKey printing) found)
  | .dict fields =>
    match (Native.dict fields).refFromMarker with
    | some found => outputs found
    | none =>
      if (Native.dict fields).isTransformMarker then resolveMarker fields
      else (resolveFields fields).map .dict
  | .model fields => (resolveNames fields).map .dict
  | .ref found _ => outputs found
  | .transform op args => (resolveItems args).bind (evalTransform printing op)
  | value => some value

def resolveItems : List Native → Option (List Native)
  | [] => some []
  | item :: items => do return (← resolve item) :: (← resolveItems items)

def resolveFields : List (Key × Native) → Option (List (Key × Native))
  | [] => some []
  | (key, value) :: fields => do
    let image ← resolve value
    return (key, image) :: (← resolveFields fields)

def resolveNames : List (FieldName × Native) → Option (List (Key × Native))
  | [] => some []
  | (name, value) :: fields => do
    let image ← resolve value
    return (.str name.text, image) :: (← resolveNames fields)

/-- The body of a `{"$transform": {"op": …, "args": […]}}` marker. -/
def resolveMarker : List (Key × Native) → Option Native
  | (_, .dict body) :: _ => do
    let operands ← resolveOperands body
    match body.lookup (.str "op") with
    | some (.str op) => evalTransform printing op operands
    | _ => none
  | _ => none

def resolveOperands : List (Key × Native) → Option (List Native)
  | [] => none
  | (key, value) :: fields =>
    if key = .str "args" then resolveArgs value else resolveOperands fields

/-- `list(args)`, resolved. -/
def resolveArgs : Native → Option (List Native)
  | .list items | .tuple items | .set items => resolveItems items
  | .str text => some (text.toList.map fun c => .str (String.singleton c))
  | .dict fields => some (fields.map fun entry => .str entry.1.text)
  | .model fields => (resolveNames fields).map (·.map fun entry =>
      .list [.str entry.1.text, entry.2])
  | _ => none

end

attribute [local simp] handlesToMarkers markerItems markerFields markerNames resolve resolveItems
  resolveFields resolveNames resolveMarker resolveOperands resolveArgs

/-! ## When the two forms agree -/

/-- The form a value is brought to: canonical, or as the operands of a transform are given. -/
def finish (stringify : Bool) (value : Native) : Option Native :=
  if stringify then handlesToMarkers printing true value else some value

/-- A set's elements stand in one order by their markers and by what they resolve to. -/
def Aligned (stringify : Bool) (items : List Native) : Prop :=
  ∀ a ∈ items, ∀ b ∈ items, ∀ markerA markerB liveA liveB,
    handlesToMarkers printing stringify a = some markerA →
    handlesToMarkers printing stringify b = some markerB →
    resolve printing outputs a = some liveA → resolve printing outputs b = some liveB →
      (orderKey printing markerA ≤ orderKey printing markerB →
        orderKey printing liveA ≤ orderKey printing liveB) ∧
      (orderKey printing liveA = orderKey printing liveB →
        finish printing stringify liveA = finish printing stringify liveB)

/-- Whether an output is plain data in canonical form. -/
def Plain (ref : Ref) : Prop :=
  ∀ value, outputs ref = some value → handlesToMarkers printing true value = some value

mutual

/-- What it takes for the forms of a value to agree: every set aligned, the outputs plain data, no
transform written as a marker by hand, and no secret or stack output among a transform's
operands. -/
def Agrees (stringify : Bool) : Native → Prop
  | .list items | .tuple items => AgreesItems stringify items
  | .set items => AgreesItems stringify items ∧ Aligned printing outputs stringify items
  | .dict fields =>
    match (Native.dict fields).refFromMarker with
    | some found => stringify = true → Plain printing outputs found
    | none => (∀ value, fields ≠ [(.str transformKey, value)]) ∧ AgreesFields stringify fields
  | .model fields => AgreesNames stringify fields
  | .ref found _ => stringify = true → Plain printing outputs found
  | .secretRef _ | .stackOutputRef _ _ => stringify = true
  | .transform _ args => AgreesItems false args
  | _ => True

def AgreesItems (stringify : Bool) : List Native → Prop
  | [] => True
  | item :: items => Agrees stringify item ∧ AgreesItems stringify items

def AgreesFields (stringify : Bool) : List (Key × Native) → Prop
  | [] => True
  | (_, value) :: fields => Agrees stringify value ∧ AgreesFields stringify fields

def AgreesNames (stringify : Bool) : List (FieldName × Native) → Prop
  | [] => True
  | (_, value) :: fields => Agrees stringify value ∧ AgreesNames stringify fields

end

end

/-! ## Item by item -/

section

variable {printing : Printing} {outputs : Ref → Option Native} {stringify : Bool}

theorem resolveItems_eq (items : List Native) :
    resolveItems printing outputs items = items.mapM (resolve printing outputs) := by
  induction items with
  | nil => rfl
  | cons item items ih =>
    rw [resolveItems, ih, List.mapM_cons]

theorem resolveFields_eq (fields : List (Key × Native)) :
    resolveFields printing outputs fields = fields.mapM fun entry =>
      (resolve printing outputs entry.2).map (entry.1, ·) := by
  induction fields with
  | nil => rfl
  | cons entry fields ih =>
    rw [resolveFields, ih, List.mapM_cons]
    cases resolve printing outputs entry.2 <;> rfl

theorem resolveNames_eq (fields : List (FieldName × Native)) :
    resolveNames printing outputs fields = fields.mapM fun entry =>
      (resolve printing outputs entry.2).map (.str entry.1.text, ·) := by
  induction fields with
  | nil => rfl
  | cons entry fields ih =>
    rw [resolveNames, ih, List.mapM_cons]
    cases resolve printing outputs entry.2 <;> rfl

end

theorem agreesItems_iff {printing : Printing} {outputs : Ref → Option Native} {stringify : Bool}
    {items : List Native} : AgreesItems printing outputs stringify items ↔
      ∀ item ∈ items, Agrees printing outputs stringify item := by
  induction items with
  | nil => exact iff_of_true trivial (List.forall_mem_nil _)
  | cons item items ih => rw [AgreesItems, ih, List.forall_mem_cons]

theorem agreesFields_iff {printing : Printing} {outputs : Ref → Option Native} {stringify : Bool}
    {fields : List (Key × Native)} : AgreesFields printing outputs stringify fields ↔
      ∀ entry ∈ fields, Agrees printing outputs stringify entry.2 := by
  induction fields with
  | nil => exact iff_of_true trivial (List.forall_mem_nil _)
  | cons entry fields ih => rw [AgreesFields, ih, List.forall_mem_cons]

theorem agreesNames_iff {printing : Printing} {outputs : Ref → Option Native} {stringify : Bool}
    {fields : List (FieldName × Native)} : AgreesNames printing outputs stringify fields ↔
      ∀ entry ∈ fields, Agrees printing outputs stringify entry.2 := by
  induction fields with
  | nil => exact iff_of_true trivial (List.forall_mem_nil _)
  | cons entry fields ih => rw [AgreesNames, ih, List.forall_mem_cons]

/-! ## Keys -/

theorem stored_str (stringify : Bool) (text : String) :
    (Key.str text).stored stringify = .str text := by
  cases stringify <;> rfl

/-- Only a marker's key is stored as one. -/
theorem of_stored {stringify : Bool} {key : Key} {text : String}
    (hmarker : text.toList.head? = some '$') (hstored : key.stored stringify = .str text) :
    key = .str text := by
  cases key with
  | str own =>
    rw [stored_str] at hstored
    exact hstored
  | other shown own plain =>
    cases stringify with
    | true =>
      cases hstored
      exact absurd hmarker plain
    | false => cases hstored

/-- Keys that are texts do not collide. -/
theorem collides_str {fields : List (Key × Native)}
    (hall : ∀ entry ∈ fields, ∃ text, entry.1 = .str text) : collides fields = false := by
  rw [collides, List.any_eq_false]
  intro key hkey hany
  obtain ⟨other, hother, hsame⟩ := List.any_eq_true.mp hany
  rw [Bool.and_eq_true, decide_eq_true_iff, decide_eq_true_iff] at hsame
  obtain ⟨entry, hentry, rfl⟩ := List.mem_map.mp hkey
  obtain ⟨otherEntry, hotherEntry, rfl⟩ := List.mem_map.mp hother
  obtain ⟨text, htext⟩ := hall entry hentry
  obtain ⟨otherText, hotherText⟩ := hall otherEntry hotherEntry
  rw [htext, hotherText] at hsame
  exact hsame.2 (congrArg Key.str hsame.1)

/-! ## Markers -/

theorem partition_append {before after : String} (hplain : '#' ∉ before.toList) :
    partition '#' (before ++ "#" ++ after) = (before, some after) := by
  have hall : ∀ c ∈ before.toList, decide (c ≠ '#') = true :=
    fun c hc => decide_eq_true fun heq => hplain (heq ▸ hc)
  have htext : (before ++ "#" ++ after).toList = before.toList ++ '#' :: after.toList := by
    rw [String.toList_append, String.toList_append, List.append_assoc]
    rfl
  rw [partition, htext, List.takeWhile_append_of_pos hall, List.dropWhile_append_of_pos hall,
    List.takeWhile_cons_of_neg (by decide), List.dropWhile_cons_of_neg (by decide)]
  simp

section

variable {printing : Printing} {outputs : Ref → Option Native} {stringify : Bool}

theorem resolve_refMarker {found : Ref} (hplain : '#' ∉ found.nodeId.toList) :
    resolve printing outputs (refMarker found) = outputs found := by
  have hmarker : (refMarker found).refFromMarker = some found := by
    rw [refMarker, refFromMarker, if_pos rfl, partition_append hplain]
  rw [refMarker] at hmarker ⊢
  rw [resolve, hmarker]

theorem resolve_transformMarker (op : String) (args : List Native) :
    resolve printing outputs (transformMarker op args) =
      (resolveItems printing outputs args).bind (evalTransform printing op) := by
  have href : (transformMarker op args).refFromMarker = none := rfl
  have htransform : (transformMarker op args).isTransformMarker = true := rfl
  rw [transformMarker] at href htransform ⊢
  rw [resolve, href]
  simp only [htransform, if_true]
  rw [resolveMarker, resolveOperands, if_neg (by decide), resolveOperands, if_pos rfl, resolveArgs]
  rfl

/-- A mapping that is no marker resolves field by field. -/
theorem resolve_dict {fields : List (Key × Native)}
    (href : (Native.dict fields).refFromMarker = none)
    (htransform : (Native.dict fields).isTransformMarker = false) :
    resolve printing outputs (.dict fields) =
      (resolveFields printing outputs fields).map .dict := by
  rw [resolve, href]
  simp only [htransform, Bool.false_eq_true, if_false]

/-- Only a text is written as one. -/
theorem of_handlesToMarkers_str {value : Native} {text : String}
    (hmarkers : handlesToMarkers printing stringify value = some (.str text)) :
    value = .str text := by
  cases value with
  | list items | tuple items | set items | model fields | transform op args =>
    rw [handlesToMarkers] at hmarkers
    obtain ⟨_, _, himage⟩ := Option.map_eq_some_iff.mp hmarkers
    cases himage
  | dict fields =>
    rw [handlesToMarkers] at hmarkers
    split at hmarkers
    · cases hmarkers
    · obtain ⟨_, _, himage⟩ := Option.map_eq_some_iff.mp hmarkers
      cases himage
  | _ => cases hmarkers <;> rfl

theorem refFromMarker_eq_some {value : Native} {found : Ref}
    (hmarker : value.refFromMarker = some found) :
    ∃ target, value = .dict [(.str refKey, .str target)] := by
  unfold refFromMarker at hmarker
  split at hmarker
  next key target =>
    split at hmarker
    next hkey => exact ⟨target, by rw [hkey]⟩
    next => cases hmarker
  next => cases hmarker

theorem isTransformMarker_eq_true {value : Native} (hmarker : value.isTransformMarker = true) :
    ∃ body, value = .dict [(.str transformKey, .dict body)] := by
  unfold isTransformMarker at hmarker
  split at hmarker
  next key body =>
    rw [Bool.and_eq_true, Bool.and_eq_true, decide_eq_true_iff] at hmarker
    exact ⟨body, by rw [hmarker.1.1]⟩
  next => cases hmarker

/-- A reference's marker is stored as it is. -/
theorem handlesToMarkers_marker {fields : List (Key × Native)}
    (hmarker : ∃ target, Native.dict fields = .dict [(.str refKey, .str target)]) :
    handlesToMarkers printing stringify (.dict fields) = some (.dict fields) := by
  obtain ⟨target, hfields⟩ := hmarker
  cases hfields
  have hcollides : collides [(Key.str refKey, Native.str target)] = false :=
    collides_str fun entry hentry => ⟨refKey, by rw [List.mem_singleton.mp hentry]⟩
  have hfields : markerFields printing stringify [(Key.str refKey, Native.str target)] =
      some [((Key.str refKey).stored stringify, .str target)] := rfl
  rw [handlesToMarkers, hcollides, Bool.and_false, if_neg Bool.false_ne_true, hfields, stored_str]
  rfl

theorem resolve_secretRefMarker (found : SecretRef) :
    resolve printing outputs (secretRefMarker found) = some (secretRefMarker found) := by
  rw [secretRefMarker]
  cases found.provider <;> rfl

theorem resolve_stackOutputMarker (stack name : String) :
    resolve printing outputs (stackOutputMarker stack name) =
      some (stackOutputMarker stack name) := rfl

/-- What is stored of a mapping that is no marker is none either. -/
theorem stored_not_marker {fields images : List (Key × Native)}
    (href : (Native.dict fields).refFromMarker = none)
    (hwritten : ∀ value, fields ≠ [(.str transformKey, value)])
    (himages : markerFields printing stringify fields = some images) :
    (Native.dict images).refFromMarker = none ∧ (Native.dict images).isTransformMarker = false := by
  have hsingle : ∀ {key : Key} {image : Native}, images = [(key, image)] →
      ∃ own value, fields = [(own, value)] ∧ own.stored stringify = key ∧
        handlesToMarkers printing stringify value = some image := by
    rintro key image rfl
    rw [markerFields_eq] at himages
    obtain ⟨⟨own, value⟩, hfields, himage⟩ := Sorting.mapM_eq_singleton himages
    obtain ⟨found, hfound, hentry⟩ := Option.map_eq_some_iff.mp himage
    obtain ⟨hkey, rfl⟩ := Prod.mk.inj hentry
    exact ⟨own, value, hfields, hkey, hfound⟩
  constructor
  · cases hmarker : (Native.dict images).refFromMarker with
    | none => rfl
    | some found =>
      obtain ⟨target, himages⟩ := refFromMarker_eq_some hmarker
      obtain ⟨own, value, hfields, hkey, hvalue⟩ := hsingle (Native.dict.inj himages)
      rw [hfields, of_stored rfl hkey, of_handlesToMarkers_str hvalue, ← himages, hmarker] at href
      cases href
  · cases hmarker : (Native.dict images).isTransformMarker with
    | false => rfl
    | true =>
      obtain ⟨body, himages⟩ := isTransformMarker_eq_true hmarker
      obtain ⟨own, value, hfields, hkey, hvalue⟩ := hsingle (Native.dict.inj himages)
      rw [of_stored rfl hkey] at hfields
      exact absurd hfields (hwritten value)

/-- What is stored of a model is no marker: its fields are identifiers. -/
theorem names_not_marker {fields : List (FieldName × Native)} {images : List (Key × Native)}
    (himages : markerNames printing stringify fields = some images) :
    (Native.dict images).refFromMarker = none ∧ (Native.dict images).isTransformMarker = false := by
  have hsingle : ∀ {text : String} {image : Native}, text.toList.head? = some '$' →
      images ≠ [(.str text, image)] := by
    rintro text image hmarker rfl
    rw [markerNames_eq] at himages
    obtain ⟨⟨name, value⟩, _, himage⟩ := Sorting.mapM_eq_singleton himages
    obtain ⟨found, _, hentry⟩ := Option.map_eq_some_iff.mp himage
    obtain ⟨hkey, _⟩ := Prod.mk.inj hentry
    cases hkey
    exact name.plain hmarker
  constructor
  · cases hmarker : (Native.dict images).refFromMarker with
    | none => rfl
    | some found =>
      obtain ⟨target, htarget⟩ := refFromMarker_eq_some hmarker
      exact absurd (Native.dict.inj htarget) (hsingle rfl)
  · cases hmarker : (Native.dict images).isTransformMarker with
    | false => rfl
    | true =>
      obtain ⟨body, hbody⟩ := isTransformMarker_eq_true hmarker
      exact absurd (Native.dict.inj hbody) (hsingle rfl)

/-! ## What a value is brought to -/

theorem finish_list (items : List Native) :
    finish printing stringify (.list items) =
      (items.mapM (finish printing stringify)).map .list := by
  cases stringify with
  | true =>
    simp only [finish, if_true]
    rw [handlesToMarkers, markerItems_eq]
    rfl
  | false =>
    have hsome : items.mapM (finish printing false) = some (items.map id) :=
      Sorting.mapM_eq_map fun item _ => rfl
    rw [hsome, List.map_id]
    rfl

theorem finish_dict (fields : List (Key × Native)) :
    finish printing stringify (.dict fields) =
      if stringify && collides fields then none
      else (fields.mapM fun entry =>
        (finish printing stringify entry.2).map (entry.1.stored stringify, ·)).map .dict := by
  cases stringify with
  | true =>
    simp only [finish, if_true]
    rw [handlesToMarkers, markerFields_eq]
  | false =>
    have hsome : (fields.mapM fun entry =>
        (finish printing false entry.2).map (entry.1.stored false, ·)) = some (fields.map id) :=
      Sorting.mapM_eq_map fun entry _ => rfl
    rw [hsome, List.map_id]
    rfl

theorem finish_str (text : String) :
    finish printing stringify (.str text) = some (.str text) := by
  cases stringify <;> rfl

/-- A transform makes a text. -/
theorem evalTransform_str {op : String} {operands : List Native} {value : Native}
    (heval : evalTransform printing op operands = some value) : ∃ text, value = .str text := by
  unfold evalTransform at heval
  split at heval
  · cases heval
    exact ⟨_, rfl⟩
  · obtain ⟨text, _, rfl⟩ := Option.map_eq_some_iff.mp heval
    exact ⟨text, rfl⟩
  · obtain ⟨parts, _, rfl⟩ := Option.map_eq_some_iff.mp heval
    exact ⟨_, rfl⟩
  · cases heval

/-- Fields whose values come to the same in either form do so together. -/
theorem fields_comm {κ : Type} {fields : List (κ × Native)} (first second : κ → Key)
    (hkeys : ∀ key, (second key).stored stringify = first key)
    (hsame : ∀ entry ∈ fields,
      (handlesToMarkers printing stringify entry.2).bind (resolve printing outputs) =
        (resolve printing outputs entry.2).bind (finish printing stringify)) :
    ((fields.mapM fun entry =>
        (handlesToMarkers printing stringify entry.2).map (first entry.1, ·)).bind
      (·.mapM fun entry => (resolve printing outputs entry.2).map (entry.1, ·))) =
    (fields.mapM fun entry => (resolve printing outputs entry.2).map (second entry.1, ·)).bind
      (·.mapM fun entry =>
        (finish printing stringify entry.2).map (entry.1.stored stringify, ·)) := by
  rw [Sorting.mapM_bind_mapM, Sorting.mapM_bind_mapM]
  refine Sorting.mapM_congr fun entry hentry => ?_
  have hvalue := hsame entry hentry
  rw [Option.bind_map, Option.bind_map]
  have hfirst : (handlesToMarkers printing stringify entry.2).bind
        ((fun entry => (resolve printing outputs entry.2).map (entry.1, ·)) ∘ (first entry.1, ·)) =
      ((handlesToMarkers printing stringify entry.2).bind (resolve printing outputs)).map
        (first entry.1, ·) := by
    rw [Option.map_bind]
    rfl
  rw [hfirst, hvalue, Option.map_bind]
  congr 1
  funext image
  rw [← hkeys]
  rfl

/-- The forms of a value come to the same. -/
def Comes (printing : Printing) (outputs : Ref → Option Native) (stringify : Bool)
    (value : Native) : Prop :=
  (handlesToMarkers printing stringify value).bind (resolve printing outputs) =
    (resolve printing outputs value).bind (finish printing stringify)

theorem resolve_list (items : List Native) :
    resolve printing outputs (.list items) =
      (items.mapM (resolve printing outputs)).map .list := by
  rw [resolve, resolveItems_eq]

/-- A rewrite of a list made from what was found, item by item. -/
theorem bind_list {found : Option (List Native)} (arrange : List Native → List Native)
    {rewrite image : Native → Option Native}
    (hlist : ∀ items, rewrite (.list items) = (items.mapM image).map .list) :
    ((found.map fun items => Native.list (arrange items)).bind rewrite) =
      (found.bind fun items => (arrange items).mapM image).map .list := by
  cases found with
  | none => rfl
  | some items => exact hlist (arrange items)

theorem comes_list {items : List Native}
    (hsame : ∀ item ∈ items, Comes printing outputs stringify item) :
    ((markerItems printing stringify items).map .list).bind (resolve printing outputs) =
      ((resolveItems printing outputs items).map .list).bind (finish printing stringify) := by
  refine (bind_list id resolve_list).trans ?_
  refine Eq.trans ?_ (bind_list id finish_list).symm
  rw [markerItems_eq, resolveItems_eq]
  simp only [id]
  rw [Sorting.mapM_bind_mapM, Sorting.mapM_bind_mapM, Sorting.mapM_congr hsame]

theorem comes_set {items : List Native}
    (hsame : ∀ item ∈ items, Comes printing outputs stringify item)
    (haligned : Aligned printing outputs stringify items) :
    Comes printing outputs stringify (.set items) := by
  rw [Comes, handlesToMarkers, resolve, bind_list (sortBy (orderKey printing)) resolve_list,
    bind_list (sortBy (orderKey printing)) finish_list, markerItems_eq, resolveItems_eq]
  congr 1
  exact bind_sortBy_comm hsame haligned

/-- Resolution keeps a mapping's keys. -/
theorem keys_resolveFields {fields images : List (Key × Native)}
    (himages : resolveFields printing outputs fields = some images) :
    images.map Prod.fst = fields.map Prod.fst := by
  induction fields generalizing images with
  | nil =>
    cases himages
    rfl
  | cons entry fields ih =>
    rw [resolveFields, Option.bind_eq_bind, Option.bind_eq_some_iff] at himages
    obtain ⟨image, _, himages⟩ := himages
    rw [Option.bind_eq_bind, Option.bind_eq_some_iff] at himages
    obtain ⟨rest, hrest, hcons⟩ := himages
    cases hcons
    rw [List.map_cons, List.map_cons, ih hrest]

theorem keys_resolveNames {fields : List (FieldName × Native)} {images : List (Key × Native)}
    (himages : resolveNames printing outputs fields = some images) :
    ∀ entry ∈ images, ∃ text, entry.1 = .str text := by
  induction fields generalizing images with
  | nil =>
    cases himages
    exact List.forall_mem_nil _
  | cons entry fields ih =>
    rw [resolveNames, Option.bind_eq_bind, Option.bind_eq_some_iff] at himages
    obtain ⟨image, _, himages⟩ := himages
    rw [Option.bind_eq_bind, Option.bind_eq_some_iff] at himages
    obtain ⟨rest, hrest, hcons⟩ := himages
    cases hcons
    exact List.forall_mem_cons.mpr ⟨⟨_, rfl⟩, ih hrest⟩

theorem comes_dict {fields : List (Key × Native)}
    (hsame : ∀ entry ∈ fields, Comes printing outputs stringify entry.2)
    (href : (Native.dict fields).refFromMarker = none)
    (hwritten : ∀ value, fields ≠ [(.str transformKey, value)]) :
    Comes printing outputs stringify (.dict fields) := by
  have htransform : (Native.dict fields).isTransformMarker = false := by
    by_contra hmarker
    obtain ⟨body, hbody⟩ := isTransformMarker_eq_true (Bool.not_eq_false _ ▸ hmarker)
    exact hwritten _ (Native.dict.inj hbody)
  have hlive : ((resolveFields printing outputs fields).map .dict).bind
        (finish printing stringify) =
      if stringify && collides fields then none
      else ((resolveFields printing outputs fields).bind (·.mapM fun entry =>
        (finish printing stringify entry.2).map (entry.1.stored stringify, ·))).map .dict := by
    cases himages : resolveFields printing outputs fields with
    | none => split <;> rfl
    | some images =>
      have hcollides : collides images = collides fields := by
        rw [collides, collides, keys_resolveFields himages]
      rw [Option.map_some, Option.bind_some, finish_dict, hcollides, Option.bind_some]
  rw [Comes, resolve_dict href htransform, hlive, handlesToMarkers]
  split
  next => rfl
  next =>
    have hmarkers : ((markerFields printing stringify fields).map .dict).bind
          (resolve printing outputs) =
        ((markerFields printing stringify fields).bind (·.mapM fun entry =>
          (resolve printing outputs entry.2).map (entry.1, ·))).map .dict := by
      cases himages : markerFields printing stringify fields with
      | none => rfl
      | some images =>
        obtain ⟨hnoRef, hnoTransform⟩ := stored_not_marker href hwritten himages
        rw [Option.map_some, Option.bind_some, resolve_dict hnoRef hnoTransform, resolveFields_eq,
          Option.bind_some]
    rw [hmarkers, markerFields_eq, resolveFields_eq]
    congr 1
    exact fields_comm (Key.stored stringify) id (fun _ => rfl) hsame

theorem comes_model {fields : List (FieldName × Native)}
    (hsame : ∀ entry ∈ fields, Comes printing outputs stringify entry.2) :
    Comes printing outputs stringify (.model fields) := by
  have hmarkers : ((markerNames printing stringify fields).map .dict).bind
        (resolve printing outputs) =
      ((markerNames printing stringify fields).bind (·.mapM fun entry =>
        (resolve printing outputs entry.2).map (entry.1, ·))).map .dict := by
    cases himages : markerNames printing stringify fields with
    | none => rfl
    | some images =>
      obtain ⟨hnoRef, hnoTransform⟩ := names_not_marker himages
      rw [Option.map_some, Option.bind_some, resolve_dict hnoRef hnoTransform, resolveFields_eq,
        Option.bind_some]
  have hlive : ((resolveNames printing outputs fields).map .dict).bind
        (finish printing stringify) =
      ((resolveNames printing outputs fields).bind (·.mapM fun entry =>
        (finish printing stringify entry.2).map (entry.1.stored stringify, ·))).map .dict := by
    cases himages : resolveNames printing outputs fields with
    | none => rfl
    | some images =>
      have hcollides : collides images = false := collides_str (keys_resolveNames himages)
      rw [Option.map_some, Option.bind_some, finish_dict, hcollides, Bool.and_false,
        if_neg Bool.false_ne_true, Option.bind_some]
  rw [Comes, handlesToMarkers, resolve, hmarkers, hlive, markerNames_eq, resolveNames_eq]
  congr 1
  exact fields_comm (fun name => .str name.text) (fun name => .str name.text)
    (fun _ => stored_str _ _) hsame

theorem comes_transform {op : String} {args : List Native}
    (hsame : ∀ item ∈ args, Comes printing outputs false item) :
    Comes printing outputs stringify (.transform op args) := by
  have hsome : ∀ found : Option Native, found.bind (finish printing false) = found := by
    intro found
    cases found <;> rfl
  have hargs : (markerItems printing false args).bind (resolveItems printing outputs) =
      resolveItems printing outputs args := by
    have hresolve : resolveItems printing outputs = (·.mapM (resolve printing outputs)) :=
      funext resolveItems_eq
    rw [hresolve, markerItems_eq, Sorting.mapM_bind_mapM]
    exact Sorting.mapM_congr fun item hitem => (hsame item hitem).trans (hsome _)
  have hmarker : resolve printing outputs ∘ transformMarker op =
      fun args => (resolveItems printing outputs args).bind (evalTransform printing op) :=
    funext (resolve_transformMarker op)
  rw [Comes, handlesToMarkers, resolve, Option.bind_map, hmarker, ← Option.bind_assoc, hargs]
  cases heval : (resolveItems printing outputs args).bind (evalTransform printing op) with
  | none => rfl
  | some value =>
    obtain ⟨operands, _, hvalue⟩ := Option.bind_eq_some_iff.mp heval
    obtain ⟨text, rfl⟩ := evalTransform_str hvalue
    rw [Option.bind_some, finish_str]

theorem comes_ref {found : Ref} (hplain : stringify = true → Plain printing outputs found) :
    outputs found = (outputs found).bind (finish printing stringify) := by
  cases houtput : outputs found with
  | none => rfl
  | some value =>
    rw [Option.bind_some]
    cases stringify with
    | true => exact (hplain rfl value houtput).symm
    | false => rfl

/-- The texts a set is sorted by tell its elements apart, in either form. -/
structure Told (printing : Printing) (outputs : Ref → Option Native) (stringify : Bool)
    (items : List Native) : Prop where
  markers : ∀ a ∈ items, ∀ b ∈ items, ∀ markerA markerB,
    handlesToMarkers printing stringify a = some markerA →
    handlesToMarkers printing stringify b = some markerB →
      orderKey printing markerA = orderKey printing markerB → markerA = markerB
  live : ∀ a ∈ items, ∀ b ∈ items, ∀ liveA liveB, resolve printing outputs a = some liveA →
    resolve printing outputs b = some liveB →
      (orderKey printing liveA = orderKey printing liveB ↔
        finish printing stringify liveA = finish printing stringify liveB)

/-- **A set whose elements come to the same does so itself exactly where it is aligned.** -/
theorem comes_set_iff {items : List Native}
    (hsame : ∀ item ∈ items, Comes printing outputs stringify item)
    (htold : Told printing outputs stringify items)
    (hsome : ((handlesToMarkers printing stringify (.set items)).bind
      (resolve printing outputs)).isSome) :
    Comes printing outputs stringify (.set items) ↔ Aligned printing outputs stringify items := by
  refine ⟨fun hcomes => ?_, comes_set hsame⟩
  rw [Comes] at hcomes
  rw [handlesToMarkers, bind_list (sortBy (orderKey printing)) resolve_list, markerItems_eq,
    Option.isSome_map] at hsome
  rw [handlesToMarkers, resolve, bind_list (sortBy (orderKey printing)) resolve_list,
    bind_list (sortBy (orderKey printing)) finish_list, markerItems_eq, resolveItems_eq] at hcomes
  have hlists := Option.map_injective (fun _ _ => Native.list.inj) hcomes
  intro a ha b hb markerA markerB liveA liveB hmarkerA hmarkerB hliveA hliveB
  refine ⟨fun hle => ?_, (htold.live a ha b hb _ _ hliveA hliveB).mp⟩
  rcases lt_or_eq_of_le hle with hlt | heq
  · exact aligned_of_bind_sortBy hsame hlists hsome
      (fun a ha b hb _ _ hliveA hliveB => (htold.live a ha b hb _ _ hliveA hliveB).mpr)
      ha hb hmarkerA hmarkerB hliveA hliveB hlt
  · have hmarkers := htold.markers a ha b hb _ _ hmarkerA hmarkerB heq
    have hsameA := hsame a ha
    have hsameB := hsame b hb
    rw [Comes, hmarkerA, hliveA, Option.bind_some, Option.bind_some] at hsameA
    rw [Comes, hmarkerB, hliveB, Option.bind_some, Option.bind_some, ← hmarkers, hsameA] at hsameB
    exact le_of_eq ((htold.live a ha b hb _ _ hliveA hliveB).mpr hsameB)

/-- **The two forms of a value come to the same where they agree**, in an operand and outside. -/
theorem comes (value : Native) : ∀ stringify, Agrees printing outputs stringify value →
    Comes printing outputs stringify value := by
  induction value using ind with
  | step value ih =>
    intro stringify hagrees
    cases value with
    | list items =>
      have hsame := fun item hitem =>
        ih item hitem stringify (agreesItems_iff.mp hagrees item hitem)
      rw [Comes, handlesToMarkers, resolve]
      exact comes_list hsame
    | tuple items =>
      have hsame := fun item hitem =>
        ih item hitem stringify (agreesItems_iff.mp hagrees item hitem)
      rw [Comes, handlesToMarkers, resolve]
      exact comes_list hsame
    | set items =>
      have hsame := fun item hitem =>
        ih item hitem stringify (agreesItems_iff.mp hagrees.1 item hitem)
      exact comes_set hsame hagrees.2
    | dict fields =>
      rw [Agrees] at hagrees
      split at hagrees
      next found href =>
        have hmarkers : handlesToMarkers printing stringify (.dict fields) = some (.dict fields) :=
          handlesToMarkers_marker (refFromMarker_eq_some href)
        have hresolve : resolve printing outputs (.dict fields) = outputs found := by
          rw [resolve, href]
        rw [Comes, hmarkers, Option.bind_some, hresolve]
        exact comes_ref hagrees
      next href =>
        obtain ⟨hwritten, hfields⟩ := hagrees
        refine comes_dict (fun entry hentry => ?_) href hwritten
        exact ih entry.2 (List.mem_map_of_mem hentry) stringify
          (agreesFields_iff.mp hfields entry hentry)
    | model fields =>
      refine comes_model fun entry hentry => ?_
      exact ih entry.2 (List.mem_map_of_mem hentry) stringify
        (agreesNames_iff.mp hagrees entry hentry)
    | transform op args =>
      exact comes_transform fun item hitem =>
        ih item hitem false (agreesItems_iff.mp hagrees item hitem)
    | ref found plain =>
      rw [Comes, handlesToMarkers, Option.bind_some, resolve_refMarker plain, resolve]
      exact comes_ref hagrees
    | secretRef found =>
      cases hagrees
      rw [Comes, handlesToMarkers, Option.bind_some, resolve_secretRefMarker]
      rfl
    | stackOutputRef stack name =>
      cases hagrees
      rw [Comes, handlesToMarkers, Option.bind_some, resolve_stackOutputMarker]
      rfl
    | _ => cases stringify <;> rfl

end

/-! ## A set of a handle and a text -/

/-- Prints nothing. -/
def blank : Printing := ⟨fun _ => "", fun _ => "", fun _ _ => none⟩

def upstream : Ref := ⟨"app:Bucket:logs", "arn"⟩

def arnIs (text : String) (ref : Ref) : Option Native :=
  if ref = upstream then some (.str text) else none

def handleAndText : List Native := [.ref upstream (by decide), .str "b"]

theorem aligned_handleAndText : Aligned blank (arnIs "z") true handleAndText := by
  intro a ha b hb markerA markerB liveA liveB hmarkerA hmarkerB hliveA hliveB
  rw [handleAndText, List.mem_pair] at ha hb
  rcases ha with rfl | rfl <;> rcases hb with rfl | rfl <;> cases hmarkerA <;> cases hmarkerB <;>
    cases hliveA <;> cases hliveB
  · exact ⟨fun _ => le_rfl, fun _ => rfl⟩
  · exact ⟨by decide, fun hsame => absurd hsame (by decide)⟩
  · exact ⟨by decide, fun hsame => absurd hsame (by decide)⟩
  · exact ⟨fun _ => le_rfl, fun _ => rfl⟩

/-- A mapping under a number, with a set of a handle and a text and a transform. -/
def declared : Native :=
  .dict [(.other "1" "1" (by decide), .set handleAndText),
    (.str "name", .transform "concat" [.str "logs-", .ref upstream (by decide)])]

end Native

end Atlantide
