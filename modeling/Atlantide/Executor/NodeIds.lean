import Atlantide.Executor.Run
import Atlantide.Lib.Fallible

/-! # The node id a provider sees

A resource object's node id is made where the object is constructed: of the stack and the component
that are active there, its type and its name. The config's declarations make the ids; an object that
is rebuilt from an artifact or from a row is given the name alone. -/

namespace Atlantide

open Fallible Executor

/-- The parts of a node id. Names have no `:` and no `~`. -/
structure NodeName where
  stack : String
  type : String
  name : String
  plain : ':' ∉ name.toList ∧ '~' ∉ name.toList

def NodeName.text (id : NodeName) : String := id.stack ++ ":" ++ id.type ++ ":" ++ id.name

/-- Rebuilds a node's resource from an artifact. -/
def rehydrateResource (env : ApplyEnv) (node : IRNode) : Except Fault Resource :=
  match env.types node.type with
  | none => .error (.engine ("resource type is not registered: " ++ node.type))
  | some cls => do
    let res ← newResource env node.type (localNameOf node.id) cls node.properties
    .ok { res with preventDestroy := node.preventDestroy }

/-- The name an object is constructed under. -/
def Ambient.qualified (ambient : Ambient) (name : String) : String :=
  match ambient.component with
  | some component => component ++ "-" ++ name
  | none => name

/-- Where the resource object handed to a provider comes from. -/
inductive Origin
  /-- The config's own declaration, whose id the node took. -/
  | declared
  | artifact (node : IRNode)
  | row (row : StateNode)

/-- The engine may hand this object to a provider for the node. -/
def Handed (env : ApplyEnv) (live : LiveOutputs) (id : NodeName) (res : Resource) : Origin → Prop
  | .declared => ∃ (declaring : ApplyEnv) (cls : ResourceType) (properties : Dict String Value)
        (name : String), newResource declaring id.type name cls properties = .ok res ∧
      id.stack = declaring.ambient.stack ∧ id.name = declaring.ambient.qualified name
  | .artifact node => node.id = id.text ∧ node.type = id.type ∧ rehydrateResource env node = .ok res
  | .row row => (row.id = id.text ∨ row.id = cbdCompanionId id.text) ∧ row.type = id.type ∧
      reconstruct env live row = .ok res

/-- A live resource of the account, under the managed tag it was created with. -/
structure Tagged where
  physicalId : String
  managed : String

/-- The resource a node created, found by its tag. -/
def findTagged (account : List Tagged) (nodeId : String) : Option Tagged :=
  account.find? fun item => item.managed = nodeId

/-- The provider sees the node under its own id, so what it finds by that id is the node's. -/
def OwnId (id : NodeName) (res : Resource) : Prop :=
  res.nodeId = id.text ∧
    ∀ account found, findTagged account res.nodeId = some found → found.managed = id.text

theorem ownId_iff (id : NodeName) (res : Resource) : OwnId id res ↔ res.nodeId = id.text := by
  constructor
  · exact And.left
  · intro hid
    refine ⟨hid, fun account found hfound => ?_⟩
    have hmanaged : found.managed = res.nodeId := by simpa using List.find?_some hfound
    exact hmanaged.trans hid

/-! ## Names -/

/-- What follows the last `:`. -/
theorem localNameOf_append {before name : String} (hname : ':' ∉ name.toList) :
    localNameOf (before ++ ":" ++ name) = name := by
  have hall : ∀ c ∈ name.toList.reverse, (c ≠ ':') = true := by
    intro c hc
    have hne : c ≠ ':' := fun heq => hname (heq ▸ List.mem_reverse.mp hc)
    simpa using hne
  have hsplit : (before ++ ":" ++ name).toList.reverse =
      name.toList.reverse ++ ':' :: before.toList.reverse := by
    simp
  rw [localNameOf, hsplit, List.takeWhile_append_of_pos (by simpa using hall)]
  simp

theorem localNameOf_prefixed {before name : String} (hname : ':' ∉ name.toList) :
    localNameOf (before ++ "-" ++ name) ≠ name := by
  have hall : ∀ c ∈ name.toList.reverse, (c ≠ ':') = true := by
    intro c hc
    have hne : c ≠ ':' := fun heq => hname (heq ▸ List.mem_reverse.mp hc)
    simpa using hne
  have hsplit : (before ++ "-" ++ name).toList.reverse =
      name.toList.reverse ++ '-' :: before.toList.reverse := by
    simp
  intro heq
  have hlength := congrArg (fun text : String => text.toList.length) heq
  rw [localNameOf, hsplit, List.takeWhile_append_of_pos (by simpa using hall),
    List.takeWhile_cons_of_pos (by decide)] at hlength
  simp at hlength
  omega

theorem removeSuffix_of_plain {name : String} (hname : '~' ∉ name.toList) :
    removeSuffix (cbdCompanionId "") name = name := by
  unfold removeSuffix
  rw [if_neg]
  intro hsuffix
  obtain ⟨before, hbefore⟩ := List.isSuffixOf_iff_suffix.mp hsuffix
  exact hname (hbefore ▸ List.mem_append_right _ (by decide))

theorem removeSuffix_companion (name : String) :
    removeSuffix (cbdCompanionId "") (name ++ "~replaced") = name := by
  have hcompanion : (cbdCompanionId "").toList = "~replaced".toList := by decide
  unfold removeSuffix
  rw [if_pos]
  · rw [hcompanion]
    simp
  · rw [List.isSuffixOf_iff_suffix, hcompanion]
    exact ⟨name.toList, by simp⟩

namespace NodeName

variable (id : NodeName)

/-- An artifact's node and both kinds of rows are rebuilt under the node's own name. -/
theorem localNameOf_text : localNameOf id.text = id.name :=
  localNameOf_append id.plain.1

theorem rebuiltName {rowId : String} (hrow : rowId = id.text ∨ rowId = cbdCompanionId id.text) :
    removeSuffix (cbdCompanionId "") (localNameOf rowId) = id.name := by
  rcases hrow with rfl | rfl
  · rw [localNameOf_text, removeSuffix_of_plain id.plain.2]
  · have hcompanion : cbdCompanionId id.text =
        id.stack ++ ":" ++ id.type ++ ":" ++ (id.name ++ "~replaced") := by
      simp [cbdCompanionId, text, String.append_assoc]
    have hplain : ':' ∉ (id.name ++ "~replaced").toList := by
      simpa using id.plain.1
    rw [hcompanion, localNameOf_append hplain, removeSuffix_companion]

end NodeName

/-! ## Objects under construction -/

/-- The node id of an object constructed in the context. -/
def Ambient.nodeId (ambient : Ambient) (type name : String) : String :=
  ambient.stack ++ ":" ++ type ++ ":" ++ ambient.qualified name

theorem nodeId_of_newResource {env : ApplyEnv} {type name : String} {cls : ResourceType}
    {properties : Dict String Value} {res : Resource}
    (hnew : newResource env type name cls properties = .ok res) :
    res.nodeId = env.ambient.nodeId type name := by
  obtain ⟨fields, -, hres⟩ := bind_eq_ok hnew
  obtain rfl := Except.ok.inj hres
  rfl

theorem nodeId_of_rewritten {rewritten : Except Fault (Dict String Value)} {res res' : Resource}
    (hok : (do let inputs ← rewritten; .ok { res with inputs } : Except Fault Resource) = .ok res') :
    res'.nodeId = res.nodeId := by
  obtain ⟨inputs, -, hres⟩ := bind_eq_ok hok
  obtain rfl := Except.ok.inj hres
  rfl

theorem nodeId_of_rehydrated {env : ApplyEnv} {node : IRNode} {res : Resource}
    (hok : rehydrateResource env node = .ok res) :
    res.nodeId = env.ambient.nodeId node.type (localNameOf node.id) := by
  unfold rehydrateResource at hok
  split at hok
  · cases hok
  · obtain ⟨built, hbuilt, hres⟩ := bind_eq_ok hok
    obtain rfl := Except.ok.inj hres
    have hid : built.nodeId = env.ambient.nodeId node.type (localNameOf node.id) :=
      nodeId_of_newResource hbuilt
    exact hid

theorem nodeId_of_reconstructed {env : ApplyEnv} {live : LiveOutputs} {row : StateNode}
    {res : Resource} (hok : reconstruct env live row = .ok res) :
    res.nodeId =
      env.ambient.nodeId row.type (removeSuffix (cbdCompanionId "") (localNameOf row.id)) := by
  unfold reconstruct at hok
  split at hok
  · cases hok
  · obtain ⟨properties, -, hok⟩ := bind_eq_ok hok
    obtain ⟨fields, -, hok⟩ := bind_eq_ok hok
    obtain ⟨built, hbuilt, hok⟩ := bind_eq_ok hok
    obtain ⟨opened, hopened, hok⟩ := bind_eq_ok hok
    rw [nodeId_of_rewritten hok, nodeId_of_rewritten hopened, nodeId_of_newResource hbuilt]

/-- An object of the node's name has the node's id just in the node's stack, outside components. -/
theorem ambient_nodeId_iff (ambient : Ambient) (id : NodeName) :
    ambient.nodeId id.type id.name = id.text ↔
      ambient.stack = id.stack ∧ ambient.component = none := by
  unfold Ambient.nodeId Ambient.qualified NodeName.text
  constructor
  · intro hid
    cases hcomponent : ambient.component with
    | none =>
      rw [hcomponent] at hid
      refine ⟨?_, rfl⟩
      have hlist := congrArg String.toList hid
      simp only [String.toList_append, List.append_assoc, List.append_cancel_right_eq] at hlist
      exact String.toList_inj.mp hlist
    | some component =>
      -- A component's prefix stands before the name, with no `:` between them.
      rw [hcomponent] at hid
      have hlocal : localNameOf (ambient.stack ++ ":" ++ id.type ++ ":" ++ component ++ "-" ++ id.name) =
          id.name := by
        calc
          _ = localNameOf id.text := by
            rw [NodeName.text, ← hid]
            simp only [String.append_assoc]
          _ = id.name := id.localNameOf_text
      exact absurd hlocal (localNameOf_prefixed id.plain.1)
  · rintro ⟨hstack, hcomponent⟩
    rw [hstack, hcomponent]

/-- A row of another stack than the engine's. -/
def stackedName : NodeName := ⟨"s", "t", "a", by decide⟩

theorem reconstructed_otherwise : ∃ res,
    reconstruct Small.env ∅ (Small.row (Small.node "a" []) "p1") = .ok res ∧
      res.nodeId = "default:t:a" := by
  have hisOk : (reconstruct Small.env ∅ (Small.row (Small.node "a" []) "p1")).isOk = true := by
    decide +kernel
  obtain ⟨res, hok⟩ := isOk_iff.mp hisOk
  exact ⟨res, hok, (nodeId_of_reconstructed hok).trans (by decide)⟩

end Atlantide
