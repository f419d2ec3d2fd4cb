import Mathlib.Data.List.Nodup
import Mathlib.Data.List.Perm.Basic
import Atlantide.IR.Canonical

/-! # What the encoder makes of Python values

The encoder accepts Python values of many types, and texts that have no UTF-8 form. It gives two
values the same bytes exactly when they stand for the same JSON value, and fails exactly on those that
stand for none. -/

namespace Atlantide

open Canonical PrefixCode

/-- A code point, surrogates included. -/
abbrev CodePoint := Fin 0x110000

/-- A Python text. -/
abbrev Text := List CodePoint

namespace CodePoint

def ofChar (c : Char) : CodePoint :=
  ⟨c.toNat, by
    rcases c.valid with hlow | ⟨-, hhigh⟩
    · exact Nat.lt_trans hlow (by decide)
    · exact hhigh⟩

/-- The character, unless the code point is a lone surrogate. -/
def char? (point : CodePoint) : Option Char :=
  if point.val.isValidChar then some (Char.ofNat point.val) else none

@[simp]
theorem char?_ofChar (c : Char) : (ofChar c).char? = some c := by
  have hvalid : (ofChar c).val.isValidChar := c.valid
  rw [char?, if_pos hvalid]
  exact congrArg some (Char.ofNat_toNat c)

end CodePoint

namespace Text

open CodePoint

def ascii (chars : List Char) : Text := chars.map ofChar

/-- The characters, if the text has a UTF-8 form. -/
def chars (text : Text) : Option (List Char) := text.mapM char?

/-- What stands for a code point within a string; a surrogate is not escaped. -/
def escaped (point : CodePoint) : Text :=
  match point.char? with
  | some c => ascii (Canonical.escaped c)
  | none => [point]

/-- `json.dumps(text, ensure_ascii=False)`. -/
def dumps (text : Text) : Text := ofChar quote :: (text.flatMap escaped ++ [ofChar quote])

end Text

inductive PyKey
  | str (text : Text)
  | other

/-- The Python values that an input can hold. A model is known by its dump in JSON mode. -/
inductive PyValue (F : Type)
  | none
  | bool (value : Bool)
  | int (value : Int)
  | float (value : F)
  | str (text : Text)
  | list (items : List (PyValue F))
  | tuple (items : List (PyValue F))
  | dict (fields : List (PyKey × PyValue F))
  | model (dump : List (PyKey × PyValue F))
  | other (typeName : String)

/-- The floats and their `repr`: one text for each finite float, with a point or an exponent. -/
structure FloatReprs (F : Type) where
  finite : F → Bool
  repr : F → String
  injective : ∀ value other, finite value = true → finite other = true →
    repr value = repr other → value = other
  printed : ∀ value, finite value = true → FloatText (repr value)

/-- A step from a value to one within it. -/
inductive PathStep
  | index (position : Nat)
  | key (name : Text)

/-- Where in the encoded value an error is; the value itself is at the empty path. -/
abbrev ValuePath := List PathStep

inductive IRError (F : Type)
  | notEncodable (typeName : String) (path : ValuePath)
  | nonFinite (value : F) (path : ValuePath)
  | keyNotString (path : ValuePath)
  | surrogate (path : ValuePath)

/-- The entries in the order of their keys. -/
def sortByKey {α : Type} (entries : List (Text × α)) : List (Text × α) :=
  entries.mergeSort fun a b => compare a.1 b.1 ≠ .gt

namespace PyValue

open CodePoint Text

variable {F : Type}

/-- The entries under their names, unless a key is no string. -/
def named {α ε : Type} (fault : ε) (entries : List (PyKey × α)) : Except ε (List (Text × α)) :=
  entries.mapM fun entry => match entry.1 with
    | .str name => .ok (name, entry.2)
    | .other => .error fault

def encodeEntry (entry : Text × Except (IRError F) Text) : Except (IRError F) Text := do
  .ok (Text.dumps entry.1 ++ ofChar ':' :: (← entry.2))

def encodeObject (path : ValuePath) (entries : List (PyKey × Except (IRError F) Text)) :
    Except (IRError F) Text := do
  let entries ← named (.keyNotString path) entries
  let parts ← (sortByKey entries).mapM encodeEntry
  .ok (ofChar openBrace :: ([ofChar ','].intercalate parts ++ [ofChar closeBrace]))

/-- The path of a key's value. -/
def under (path : ValuePath) : PyKey → ValuePath
  | .str name => path ++ [.key name]
  | .other => path

section

variable (floats : FloatReprs F)

mutual

/-- Encodes one value; the path is for error messages. -/
def encode : PyValue F → ValuePath → Except (IRError F) Text
  | none, _ => .ok (ascii ['n', 'u', 'l', 'l'])
  | bool true, _ => .ok (ascii ['t', 'r', 'u', 'e'])
  | bool false, _ => .ok (ascii ['f', 'a', 'l', 's', 'e'])
  | str text, _ => .ok (Text.dumps text)
  | int value, _ => .ok (ascii (toString value).toList)
  | float value, path =>
    if floats.finite value then .ok (ascii (floats.repr value).toList)
    else .error (.nonFinite value path)
  | dict fields, path => encodeObject path (encodeFields fields path)
  | list items, path | tuple items, path => do
    let parts ← encodeItems items path 0
    .ok (ofChar '[' :: ([ofChar ','].intercalate parts ++ [ofChar ']']))
  | model dump, path => encodeObject path (encodeFields dump path)
  | other typeName, path => .error (.notEncodable typeName path)

def encodeItems : List (PyValue F) → ValuePath → Nat → Except (IRError F) (List Text)
  | [], _, _ => .ok []
  | item :: items, path, position => do
    let part ← encode item (path ++ [.index position])
    let parts ← encodeItems items path (position + 1)
    .ok (part :: parts)

def encodeFields : List (PyKey × PyValue F) → ValuePath →
    List (PyKey × Except (IRError F) Text)
  | [], _ => []
  | (key, value) :: fields, path =>
    (key, encode value (under path key)) :: encodeFields fields path

end

end

/-- The first of the entries that has something without a UTF-8 form, in the order of the keys. -/
def unencodableEntry (path : ValuePath) (entries : List (PyKey × Option ValuePath)) :
    Option ValuePath :=
  match named () entries with
  | .error _ => .none
  | .ok entries => (sortByKey entries).findSome? fun entry =>
    if (chars entry.1).isNone then some (path ++ [.key entry.1]) else entry.2

mutual

/-- The path of the first string without a UTF-8 form. -/
def unencodablePath : PyValue F → ValuePath → Option ValuePath
  | str text, path => if (chars text).isSome then .none else some path
  | model dump, path => unencodableEntry path (unencodableFields dump path)
  | dict fields, path => unencodableEntry path (unencodableFields fields path)
  | list items, path | tuple items, path => unencodableItems items path 0
  | _, _ => .none

def unencodableItems : List (PyValue F) → ValuePath → Nat → Option ValuePath
  | [], _, _ => .none
  | item :: items, path, position =>
    (unencodablePath item (path ++ [.index position])).or
      (unencodableItems items path (position + 1))

def unencodableFields : List (PyKey × PyValue F) → ValuePath →
    List (PyKey × Option ValuePath)
  | [], _ => []
  | (key, value) :: fields, path =>
    (key, unencodablePath value (under path key)) :: unencodableFields fields path

end

/-- Canonical UTF-8 bytes. -/
def toCanonicalJson (floats : FloatReprs F) (value : PyValue F) : Except (IRError F) ByteArray := do
  let text ← encode floats value []
  match chars text with
  | some text => .ok (String.ofList text).toUTF8
  | .none => .error (.surrogate ((unencodablePath value []).getD []))

/-! ## The JSON value that a Python value stands for -/

def jsonEntry (entry : Text × Option Value) : Option (String × Value) := do
  some (String.ofList (← chars entry.1), ← entry.2)

def jsonObject (entries : List (PyKey × Option Value)) : Option (List (String × Value)) := do
  let entries ← (named () entries).toOption
  (sortByKey entries).mapM jsonEntry

mutual

/-- A tuple stands for a list and a model for an object; a text needs a UTF-8 form, a float to be
finite, and every key to be a string. -/
def json (floats : FloatReprs F) : PyValue F → Option Value
  | none => some .null
  | bool value => some (.bool value)
  | int value => some (.int value)
  | float value => if floats.finite value then some (.float (floats.repr value)) else .none
  | str text => (chars text).map fun text => .str (String.ofList text)
  | list items | tuple items => (jsonItems floats items).map .list
  | dict fields | model fields => (jsonObject (jsonFields floats fields)).map .dict
  | other _ => .none

def jsonItems (floats : FloatReprs F) : List (PyValue F) → Option (List Value)
  | [] => some []
  | item :: items => do some ((← json floats item) :: (← jsonItems floats items))

def jsonFields (floats : FloatReprs F) : List (PyKey × PyValue F) → List (PyKey × Option Value)
  | [] => []
  | (key, value) :: fields => (key, json floats value) :: jsonFields floats fields

end

end PyValue

/-! ## The texts and their characters -/

namespace Text

open CodePoint

@[simp]
theorem chars_ascii (text : List Char) : chars (ascii text) = some text := by
  induction text with
  | nil => rfl
  | cons c text ih =>
    rw [chars, ascii, List.map_cons, List.mapM_cons, char?_ofChar]
    rw [chars, ascii] at ih
    rw [ih]
    rfl

theorem mapM_option_cons {α β : Type} (f : α → Option β) (item : α) (items : List α) :
    (item :: items).mapM f = (f item).bind fun found => (items.mapM f).map (found :: ·) := by
  rw [List.mapM_cons]
  cases f item with
  | none => rfl
  | some found => cases items.mapM f <;> rfl

theorem chars_append (text other : Text) : chars (text ++ other) =
    (chars text).bind fun found => (chars other).map (found ++ ·) := by
  rw [chars, List.mapM_append, chars, chars]
  cases text.mapM char? with
  | none => rfl
  | some found => cases other.mapM char? <;> rfl

theorem chars_cons (c : Char) (text : Text) :
    chars (ofChar c :: text) = (chars text).map (c :: ·) := by
  rw [chars, mapM_option_cons, char?_ofChar, Option.bind_some, chars]

theorem chars_escaped (point : CodePoint) :
    chars (escaped point) = point.char?.map Canonical.escaped := by
  unfold escaped
  cases hchar : point.char? with
  | some c => exact chars_ascii _
  | none => rw [chars, mapM_option_cons, hchar, Option.bind_none, Option.map_none]

theorem chars_flatMap (text : Text) :
    chars (text.flatMap escaped) = (chars text).map (·.flatMap Canonical.escaped) := by
  induction text with
  | nil => rfl
  | cons point text ih =>
    have hcons : chars (point :: text) =
        point.char?.bind fun c => (chars text).map (c :: ·) := mapM_option_cons _ _ _
    rw [List.flatMap_cons, chars_append, chars_escaped, ih, hcons]
    cases point.char? with
    | none => rfl
    | some c => cases chars text <;> rfl

/-- The escaped text has characters where the text has. -/
theorem chars_dumps (text : Text) :
    chars (dumps text) = (chars text).map fun found => Canonical.dumps (String.ofList found) := by
  have hquote : chars [ofChar quote] = some [quote] := chars_ascii [quote]
  rw [dumps, chars_cons, chars_append, chars_flatMap, hquote]
  cases chars text with
  | none => rfl
  | some found =>
    rw [Option.map_some, Option.map_some]
    simp only [Option.bind_some, Option.map_some, Canonical.dumps, String.toList_ofList, quoted]

theorem chars_intercalate (c : Char) (parts : List Text) :
    chars ([ofChar c].intercalate parts) = (parts.mapM chars).map [c].intercalate := by
  cases parts with
  | nil => rfl
  | cons part parts =>
    induction parts generalizing part with
    | nil =>
      rw [List.intercalate_singleton, mapM_option_cons]
      cases chars part with
      | none => rfl
      | some found => exact congrArg some List.intercalate_singleton.symm
    | cons next parts ih =>
      have hsymbol : chars [ofChar c] = some [c] := chars_ascii [c]
      rw [List.intercalate_cons_cons, chars_append, chars_append, ih, mapM_option_cons chars part,
        hsymbol]
      cases chars part with
      | none => rfl
      | some found =>
        rw [Option.bind_some, Option.bind_some, Option.map_some, Option.bind_some,
          mapM_option_cons]
        cases chars next with
        | none => rfl
        | some found' =>
          cases parts.mapM chars with
          | none => rfl
          | some rest => exact congrArg some List.intercalate_cons_cons.symm

end Text

namespace PyValue

open CodePoint Text

variable {F : Type}

def children : PyValue F → List (PyValue F)
  | list items | tuple items => items
  | dict fields | model fields => fields.map Prod.snd
  | _ => []

mutual

theorem ind {motive : PyValue F → Prop}
    (step : ∀ value, (∀ child ∈ value.children, motive child) → motive value) :
    ∀ value, motive value
  | list items => step _ (indItems step items)
  | tuple items => step _ (indItems step items)
  | dict fields => step _ (indFields step fields)
  | model fields => step _ (indFields step fields)
  | none | bool _ | int _ | float _ | str _ | other _ => step _ (List.forall_mem_nil _)

theorem indItems {motive : PyValue F → Prop}
    (step : ∀ value, (∀ child ∈ value.children, motive child) → motive value) :
    ∀ items : List (PyValue F), ∀ item ∈ items, motive item
  | [] => List.forall_mem_nil _
  | item :: items => List.forall_mem_cons.mpr ⟨ind step item, indItems step items⟩

theorem indFields {motive : PyValue F → Prop}
    (step : ∀ value, (∀ child ∈ value.children, motive child) → motive value) :
    ∀ fields : List (PyKey × PyValue F), ∀ value ∈ fields.map Prod.snd, motive value
  | [] => List.forall_mem_nil _
  | (_, value) :: fields => List.forall_mem_cons.mpr ⟨ind step value, indFields step fields⟩

end

theorem encodeFields_eq (floats : FloatReprs F) (path : ValuePath)
    (fields : List (PyKey × PyValue F)) : encodeFields floats fields path =
      fields.map fun entry => (entry.1, encode floats entry.2 (under path entry.1)) := by
  induction fields with
  | nil => rfl
  | cons entry fields ih => rw [encodeFields, ih, List.map_cons]

theorem jsonFields_eq (floats : FloatReprs F) (fields : List (PyKey × PyValue F)) :
    jsonFields floats fields = fields.map fun entry => (entry.1, json floats entry.2) := by
  induction fields with
  | nil => rfl
  | cons entry fields ih => rw [jsonFields, ih, List.map_cons]

/-- The characters of what the encoder gives, if it gives a text that has them. -/
def outcome {ε : Type} (result : Except ε Text) : Option (List Char) := result.toOption.bind chars

/-- The encoder gives the value's canonical text, wherever it stands. -/
def Encodes (floats : FloatReprs F) (value : PyValue F) : Prop :=
  ∀ path, outcome (encode floats value path) = (json floats value).map Value.text

theorem outcome_cons {ε : Type} (first : Except ε Text) (rest : Except ε (List Text)) :
    (do let part ← first; let parts ← rest; .ok (part :: parts) :
      Except ε (List Text)).toOption.bind (·.mapM chars) =
        (outcome first).bind fun part => (rest.toOption.bind (·.mapM chars)).map (part :: ·) := by
  cases first with
  | error fault => rfl
  | ok part =>
    cases rest with
    | error fault =>
      change Option.none = (chars part).bind fun _ => Option.none
      cases chars part <;> rfl
    | ok parts => exact mapM_option_cons chars part parts

/-- Parts that are encoded one by one are encoded together. -/
theorem outcome_mapM {α β ε : Type} {encodePart : α → Except ε Text} {form : α → Option β}
    {text : β → List Char} {items : List α}
    (hparts : ∀ item ∈ items, outcome (encodePart item) = (form item).map text) :
    (items.mapM encodePart).toOption.bind (·.mapM chars) = (items.mapM form).map (·.map text) := by
  induction items with
  | nil => rfl
  | cons item items ih =>
    obtain ⟨hitem, hitems⟩ := List.forall_mem_cons.mp hparts
    have hcons : (item :: items).mapM encodePart = (do
        let part ← encodePart item
        let parts ← items.mapM encodePart
        .ok (part :: parts)) := List.mapM_cons
    rw [hcons, outcome_cons, hitem, ih hitems, mapM_option_cons]
    cases form item with
    | none => rfl
    | some found => cases items.mapM form <;> rfl

theorem encodeItems_eq {floats : FloatReprs F} {items : List (PyValue F)}
    (hitems : ∀ item ∈ items, Encodes floats item) (path : ValuePath) (position : Nat) :
    (encodeItems floats items path position).toOption.bind (·.mapM chars) =
      (jsonItems floats items).map (·.map Value.text) := by
  induction items generalizing position with
  | nil => rfl
  | cons item items ih =>
    obtain ⟨hitem, hitems⟩ := List.forall_mem_cons.mp hitems
    rw [encodeItems, outcome_cons, hitem, ih hitems, jsonItems]
    cases json floats item with
    | none => rfl
    | some found => cases jsonItems floats items <;> rfl

/-- Joined and put between two symbols, the parts' characters are. -/
theorem chars_enclosed (first last : Char) (parts : List Text) :
    chars (ofChar first :: ([ofChar ','].intercalate parts ++ [ofChar last])) =
      (parts.mapM chars).map fun parts => first :: ([','].intercalate parts ++ [last]) := by
  have hlast : chars [ofChar last] = some [last] := chars_ascii [last]
  rw [chars_cons, chars_append, chars_intercalate, hlast]
  cases parts.mapM chars <;> rfl

/-- Parts that are encoded together are encoded between two symbols. -/
theorem outcome_enclosed {β ε : Type} {parts : Except ε (List Text)} {forms : Option (List β)}
    {text : β → List Char}
    (hparts : parts.toOption.bind (·.mapM chars) = forms.map (·.map text)) (first last : Char) :
    outcome (do
      let parts ← parts
      .ok (ofChar first :: ([ofChar ','].intercalate parts ++ [ofChar last]))) =
      forms.map fun forms => first :: ([','].intercalate (forms.map text) ++ [last]) := by
  cases parts with
  | error fault =>
    cases forms with
    | none => rfl
    | some forms => cases hparts
  | ok parts =>
    change chars _ = _
    rw [chars_enclosed, show parts.mapM chars = forms.map (·.map text) from hparts, Option.map_map]
    rfl

theorem encodes_items {floats : FloatReprs F} {items : List (PyValue F)}
    (hitems : ∀ item ∈ items, Encodes floats item) (path : ValuePath) :
    outcome (do
      let parts ← encodeItems floats items path 0
      .ok (ofChar '[' :: ([ofChar ','].intercalate parts ++ [ofChar ']']))) =
      ((jsonItems floats items).map .list).map Value.text := by
  rw [outcome_enclosed (encodeItems_eq hitems path 0), Option.map_map]
  refine congrArg (Option.map · _) (funext fun forms => ?_)
  rw [Function.comp, Value.text, Value.itemTexts_eq]

/-! ## Objects -/

theorem named_cons_str {α ε : Type} (fault : ε) (name : Text) (value : α)
    (entries : List (PyKey × α)) :
    named fault ((.str name, value) :: entries) =
      (named fault entries).map ((name, value) :: ·) := by
  rw [named, List.mapM_cons]
  change (do let rest ← named fault entries; pure ((name, value) :: rest)) = _
  cases named fault entries <;> rfl

theorem named_cons_other {α ε : Type} (fault : ε) (value : α) (entries : List (PyKey × α)) :
    named fault ((.other, value) :: entries) = .error fault := by
  rw [named, List.mapM_cons]
  rfl

/-- Whether every key is a string does not depend on the values. -/
theorem named_map {α β ε : Type} (fault : ε) (change : PyKey → α → β) (entries : List (PyKey × α)) :
    named fault (entries.map fun entry => (entry.1, change entry.1 entry.2)) =
      match named () entries with
      | .error _ => .error fault
      | .ok named => .ok (named.map fun entry => (entry.1, change (.str entry.1) entry.2)) := by
  induction entries with
  | nil => rfl
  | cons entry entries ih =>
    obtain ⟨key, value⟩ := entry
    cases key with
    | other => rw [List.map_cons, named_cons_other, named_cons_other]
    | str name =>
      rw [List.map_cons, named_cons_str, named_cons_str, ih]
      cases named () entries <;> rfl

theorem mem_of_named {α : Type} {entries : List (PyKey × α)} {found : List (Text × α)}
    (hnamed : named () entries = .ok found) : ∀ entry ∈ found, (.str entry.1, entry.2) ∈ entries := by
  induction entries generalizing found with
  | nil =>
    cases hnamed
    exact nofun
  | cons entry entries ih =>
    obtain ⟨key, value⟩ := entry
    cases key with
    | other =>
      rw [named_cons_other] at hnamed
      cases hnamed
    | str name =>
      rw [named_cons_str] at hnamed
      cases hrest : named () entries with
      | error fault =>
        rw [hrest] at hnamed
        cases hnamed
      | ok rest =>
        rw [hrest] at hnamed
        cases hnamed
        intro entry hentry
        rcases List.mem_cons.mp hentry with rfl | hmem
        · exact List.mem_cons_self
        · exact List.mem_cons_of_mem _ (ih hrest entry hmem)

theorem sortByKey_map {α β : Type} (change : Text × α → β) (entries : List (Text × α)) :
    sortByKey (entries.map fun entry => (entry.1, change entry)) =
      (sortByKey entries).map fun entry => (entry.1, change entry) :=
  (List.map_mergeSort (f := fun entry : Text × α => (entry.1, change entry))
    fun _ _ _ _ => rfl).symm

/-- A key with its value is encoded where both are. -/
theorem outcome_entry (name : Text) (value : Except (IRError F) Text) {form : Option Value}
    (hvalue : outcome value = form.map Value.text) :
    outcome (encodeEntry (name, value)) = (jsonEntry (name, form)).map Value.entryText := by
  cases value with
  | error fault =>
    cases form with
    | none =>
      rw [jsonEntry]
      cases chars name <;> rfl
    | some form => cases hvalue
  | ok text =>
    change chars (Text.dumps name ++ ofChar ':' :: text) = _
    rw [chars_append, chars_dumps, chars_cons, show chars text = form.map Value.text from hvalue,
      jsonEntry]
    cases chars name with
    | none => rfl
    | some found => cases form <;> rfl

theorem encodes_object {floats : FloatReprs F} {fields : List (PyKey × PyValue F)}
    (hfields : ∀ value ∈ fields.map Prod.snd, Encodes floats value) (path : ValuePath) :
    outcome (encodeObject path (encodeFields floats fields path)) =
      ((jsonObject (jsonFields floats fields)).map .dict).map Value.text := by
  rw [encodeFields_eq, jsonFields_eq, encodeObject, jsonObject,
    named_map _ (fun key value => encode floats value (under path key)),
    named_map _ (fun _ value => json floats value)]
  cases hnamed : named () fields with
  | error fault => rfl
  | ok found =>
    have hparts : ∀ entry ∈ sortByKey found,
        outcome (encodeEntry (entry.1, encode floats entry.2 (under path (.str entry.1)))) =
          (jsonEntry (entry.1, json floats entry.2)).map Value.entryText := by
      intro entry hentry
      have hmem := mem_of_named hnamed entry (List.mem_mergeSort.mp hentry)
      exact outcome_entry entry.1 _ (hfields entry.2 (List.mem_map_of_mem hmem) _)
    have hall := outcome_mapM hparts
    change outcome (do
        let parts ← (sortByKey (found.map fun entry =>
          (entry.1, encode floats entry.2 (under path (.str entry.1))))).mapM encodeEntry
        .ok (ofChar openBrace :: ([ofChar ','].intercalate parts ++ [ofChar closeBrace]))) =
      (((sortByKey (found.map fun entry =>
        (entry.1, json floats entry.2))).mapM jsonEntry).map .dict).map Value.text
    rw [sortByKey_map (fun entry => encode floats entry.2 (under path (.str entry.1))),
      sortByKey_map (fun entry => json floats entry.2), List.mapM_map, List.mapM_map, Option.map_map]
    refine (outcome_enclosed hall openBrace closeBrace).trans ?_
    refine congrArg (Option.map · _) (funext fun forms => ?_)
    rw [Function.comp, Value.text, Value.fieldTexts_eq]

/-- **The encoder gives the canonical text of the JSON value**, and none where there is none. -/
theorem encodes (floats : FloatReprs F) (value : PyValue F) : Encodes floats value := by
  induction value using ind with
  | step value ih =>
    intro path
    cases value with
    | none => exact chars_ascii _
    | bool flag => cases flag <;> exact chars_ascii _
    | int value => exact chars_ascii _
    | float value =>
      rw [encode, json]
      split
      next => exact chars_ascii _
      next => rfl
    | str text =>
      change chars (Text.dumps text) = _
      rw [chars_dumps, json, Option.map_map]
      cases chars text <;> rfl
    | list items =>
      rw [encode, json]
      exact encodes_items ih path
    | tuple items =>
      rw [encode, json]
      exact encodes_items ih path
    | dict fields =>
      rw [encode, json]
      exact encodes_object ih path
    | model fields =>
      rw [encode, json]
      exact encodes_object ih path
    | other typeName => rfl

/-! ## Floats are printed -/

theorem mem_of_mapM {α β : Type} {f : α → Option β} {items : List α} {found : List β}
    (hfound : items.mapM f = some found) : ∀ form ∈ found, ∃ item ∈ items, f item = some form := by
  induction items generalizing found with
  | nil =>
    cases hfound
    exact nofun
  | cons item items ih =>
    rw [mapM_option_cons] at hfound
    obtain ⟨first, hfirst, hfound⟩ := Option.bind_eq_some_iff.mp hfound
    obtain ⟨rest, hrest, rfl⟩ := Option.map_eq_some_iff.mp hfound
    intro form hform
    rcases List.mem_cons.mp hform with rfl | hmem
    · exact ⟨item, List.mem_cons_self, hfirst⟩
    · obtain ⟨other, hother, heq⟩ := ih hrest form hmem
      exact ⟨other, List.mem_cons_of_mem _ hother, heq⟩

theorem jsonItems_eq (floats : FloatReprs F) (items : List (PyValue F)) :
    jsonItems floats items = items.mapM (json floats) := by
  induction items with
  | nil => rfl
  | cons item items ih =>
    rw [jsonItems, ih, mapM_option_cons]
    cases json floats item with
    | none => rfl
    | some form => cases items.mapM (json floats) <;> rfl

theorem printed_of_children {value : Value} (hself : ∀ repr, value = .float repr → FloatText repr)
    (hchildren : ∀ child ∈ value.children, child.FloatsPrinted) : value.FloatsPrinted := by
  rw [Value.FloatsPrinted, Value.any_eq, Bool.or_eq_false_iff, List.any_eq_false]
  refine ⟨?_, fun child hchild => Bool.eq_false_iff.mp (hchildren child hchild)⟩
  cases value with
  | float repr => simpa using hself repr rfl
  | _ => rfl

theorem object_printed {floats : FloatReprs F} {fields : List (PyKey × PyValue F)}
    (hfields : ∀ value ∈ fields.map Prod.snd, ∀ form, json floats value = some form →
      form.FloatsPrinted) {found : List (String × Value)}
    (hfound : jsonObject (jsonFields floats fields) = some found) :
    (Value.dict found).FloatsPrinted := by
  refine printed_of_children nofun fun child hchild => ?_
  obtain ⟨entry, hentry, rfl⟩ := List.mem_map.mp hchild
  rw [jsonFields_eq, jsonObject, named_map _ (fun _ value => json floats value)] at hfound
  cases hnamed : named () fields with
  | error fault =>
    rw [hnamed] at hfound
    cases hfound
  | ok names =>
    rw [hnamed] at hfound
    obtain ⟨source, hsource, hform⟩ := mem_of_mapM hfound entry hentry
    rw [sortByKey_map (fun entry => json floats entry.2)] at hsource
    obtain ⟨pair, hpair, rfl⟩ := List.mem_map.mp hsource
    have hmem := mem_of_named hnamed pair (List.mem_mergeSort.mp hpair)
    rw [jsonEntry] at hform
    obtain ⟨name, -, hform⟩ := Option.bind_eq_some_iff.mp hform
    obtain ⟨form, hvalue, hform⟩ := Option.bind_eq_some_iff.mp hform
    cases hform
    exact hfields pair.2 (List.mem_map_of_mem hmem) form hvalue

/-- The floats of a JSON value are written as floats are. -/
theorem json_printed (floats : FloatReprs F) (value : PyValue F) :
    ∀ form, json floats value = some form → form.FloatsPrinted := by
  induction value using ind with
  | step value ih =>
    intro form hform
    have hitems : ∀ {items : List (PyValue F)},
        (∀ item ∈ items, ∀ form, json floats item = some form → form.FloatsPrinted) →
        (jsonItems floats items).map .list = some form → form.FloatsPrinted := by
      intro items hitems hform
      obtain ⟨forms, hforms, rfl⟩ := Option.map_eq_some_iff.mp hform
      refine printed_of_children nofun fun child hchild => ?_
      rw [jsonItems_eq] at hforms
      obtain ⟨item, hitem, heq⟩ := mem_of_mapM hforms child hchild
      exact hitems item hitem child heq
    cases value with
    | list items =>
      rw [json] at hform
      exact hitems ih hform
    | tuple items =>
      rw [json] at hform
      exact hitems ih hform
    | dict fields =>
      rw [json] at hform
      obtain ⟨found, hfound, rfl⟩ := Option.map_eq_some_iff.mp hform
      exact object_printed ih hfound
    | model fields =>
      rw [json] at hform
      obtain ⟨found, hfound, rfl⟩ := Option.map_eq_some_iff.mp hform
      exact object_printed ih hfound
    | float value =>
      rw [json] at hform
      split at hform
      next hfinite =>
        cases hform
        refine printed_of_children (fun repr heq => ?_) (List.forall_mem_nil _)
        cases heq
        exact floats.printed value hfinite
      next => cases hform
    | str text =>
      rw [json] at hform
      obtain ⟨found, -, rfl⟩ := Option.map_eq_some_iff.mp hform
      exact printed_of_children nofun (List.forall_mem_nil _)
    | other typeName => cases hform
    | _ =>
      cases hform
      exact printed_of_children nofun (List.forall_mem_nil _)

/-! ## The order of the keys -/

theorem named_eq_ok {α : Type} {entries : List (PyKey × α)} {found : List (Text × α)}
    (hnamed : named () entries = .ok found) :
    entries = found.map fun entry => (.str entry.1, entry.2) := by
  induction entries generalizing found with
  | nil =>
    cases hnamed
    rfl
  | cons entry entries ih =>
    obtain ⟨key, value⟩ := entry
    cases key with
    | other =>
      rw [named_cons_other] at hnamed
      cases hnamed
    | str name =>
      rw [named_cons_str] at hnamed
      cases hrest : named () entries with
      | error fault =>
        rw [hrest] at hnamed
        cases hnamed
      | ok rest =>
        rw [hrest] at hnamed
        cases hnamed
        rw [ih hrest, List.map_cons]

theorem named_of_forall {α : Type} {entries : List (PyKey × α)}
    (hkeys : ∀ entry ∈ entries, ∃ name, entry.1 = .str name) :
    ∃ found, named () entries = .ok found := by
  induction entries with
  | nil => exact ⟨[], rfl⟩
  | cons entry entries ih =>
    obtain ⟨⟨name, hname⟩, hrest⟩ := List.forall_mem_cons.mp hkeys
    obtain ⟨found, hfound⟩ := ih hrest
    obtain ⟨key, value⟩ := entry
    obtain rfl : key = .str name := hname
    exact ⟨(name, value) :: found, by rw [named_cons_str, hfound]; rfl⟩

/-- Two orders of the same entries, each under a name of its own, are sorted alike. -/
theorem sortByKey_perm {α : Type} {entries entries' : List (Text × α)}
    (hperm : entries.Perm entries') (hdistinct : (entries.map Prod.fst).Nodup) :
    sortByKey entries = sortByKey entries' := by
  have hsorted : ∀ entries : List (Text × α),
      (sortByKey entries).Pairwise fun a b => compare a.1 b.1 ≠ .gt := by
    intro entries
    have hpairwise := @List.pairwise_mergeSort (Text × α) (fun a b => compare a.1 b.1 ≠ .gt)
      (fun a b c hab hbc => by
        simp only [decide_eq_true_eq, ← Ordering.isLE_iff_ne_gt] at hab hbc ⊢
        exact Std.TransCmp.isLE_trans hab hbc)
      (fun a b => by
        cases hab : compare a.1 b.1 with
        | lt => simp
        | eq => simp
        | gt => simp [Std.OrientedCmp.lt_of_gt hab]) entries
    exact hpairwise.imp fun hle => of_decide_eq_true hle
  refine List.Perm.eq_of_pairwise (fun a b ha hb hab hba => ?_) (hsorted entries)
    (hsorted entries')
    ((List.mergeSort_perm _ _).trans (hperm.trans (List.mergeSort_perm _ _).symm))
  have hkey : a.1 = b.1 := by
    have hle := Ordering.isLE_iff_ne_gt.mpr hab
    exact Std.LawfulEqCmp.eq_of_compare
      (Std.OrientedCmp.isLE_antisymm hle (Ordering.isLE_iff_ne_gt.mpr hba))
  exact List.inj_on_of_nodup_map hdistinct (List.mem_mergeSort.mp ha)
    (hperm.mem_iff.mpr (List.mem_mergeSort.mp hb)) hkey

theorem named_perm {α : Type} {entries entries' : List (PyKey × α)} {found : List (Text × α)}
    (hperm : entries.Perm entries') (hnamed : named () entries = .ok found) :
    ∃ found', named () entries' = .ok found' ∧ found.Perm found' := by
  have hentries := named_eq_ok hnamed
  obtain ⟨found', hfound'⟩ := @named_of_forall α entries' fun entry hentry => by
    rw [hentries] at hperm
    obtain ⟨source, -, rfl⟩ := List.mem_map.mp (hperm.mem_iff.mpr hentry)
    exact ⟨source.1, rfl⟩
  refine ⟨found', hfound', ?_⟩
  have hentries' := named_eq_ok hfound'
  rw [hentries, hentries'] at hperm
  refine (List.map_perm_map_iff fun a b heq => ?_).mp hperm
  obtain ⟨hname, hvalue⟩ := Prod.mk.inj heq
  exact Prod.ext (PyKey.str.inj hname) hvalue

/-- An object's value does not depend on the order of its keys. -/
theorem jsonObject_perm {entries entries' : List (PyKey × Option Value)}
    (hperm : entries.Perm entries') (hdistinct : (entries.map Prod.fst).Nodup) :
    jsonObject entries = jsonObject entries' := by
  rw [jsonObject, jsonObject]
  cases hnamed : named () entries with
  | error fault =>
    cases hnamed' : named () entries' with
    | error fault => rfl
    | ok found' =>
      obtain ⟨found, hfound, -⟩ := named_perm hperm.symm hnamed'
      rw [hnamed] at hfound
      cases hfound
  | ok found =>
    obtain ⟨found', hfound', hsame⟩ := named_perm hperm hnamed
    rw [hfound']
    change (sortByKey found).mapM jsonEntry = (sortByKey found').mapM jsonEntry
    rw [sortByKey_perm hsame]
    rw [named_eq_ok hnamed, List.map_map] at hdistinct
    refine List.Nodup.of_map PyKey.str ?_
    rwa [List.map_map]

/-! ## The bytes -/

/-- What the encoder makes of a value that stands for a JSON value, and of one that does not. -/
theorem toCanonicalJson_cases (floats : FloatReprs F) (value : PyValue F) :
    (∃ form, json floats value = some form ∧
      toCanonicalJson floats value = .ok (String.ofList form.text).toUTF8) ∨
    json floats value = .none ∧ ∃ fault, toCanonicalJson floats value = .error fault := by
  have hencodes := encodes floats value []
  unfold toCanonicalJson
  cases hencoded : encode floats value [] with
  | error fault =>
    rw [hencoded] at hencodes
    right
    cases hform : json floats value with
    | none => exact ⟨rfl, fault, rfl⟩
    | some form =>
      rw [hform] at hencodes
      cases hencodes
  | ok text =>
    rw [hencoded] at hencodes
    change chars text = _ at hencodes
    cases hform : json floats value with
    | none =>
      rw [hform] at hencodes
      right
      refine ⟨rfl, .surrogate ((unencodablePath value []).getD []), ?_⟩
      change (match chars text with
        | some text => Except.ok (String.ofList text).toUTF8
        | .none => .error _) = _
      rw [hencodes]
      rfl
    | some form =>
      rw [hform] at hencodes
      left
      refine ⟨form, rfl, ?_⟩
      change (match chars text with
        | some text => Except.ok (String.ofList text).toUTF8
        | .none => .error _) = _
      rw [hencodes]
      rfl

theorem toUTF8_injective {text other : List Char}
    (hsame : (String.ofList text).toUTF8 = (String.ofList other).toUTF8) : text = other := by
  rw [String.toUTF8_eq_toByteArray, String.toUTF8_eq_toByteArray, String.toByteArray_inj] at hsame
  rw [← String.toList_ofList (l := text), hsame, String.toList_ofList]

/-- Two floats, one half and one. -/
def twoFloats : FloatReprs Bool where
  finite _ := true
  repr value := if value then "1.0" else "0.5"
  injective := by decide +kernel
  printed := by decide +kernel

def key (name : String) : PyKey := .str (ascii name.toList)

end PyValue

end Atlantide
