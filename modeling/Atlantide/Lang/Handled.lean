import Atlantide.Lang.Interp
import Atlantide.Lang.Validate
import Atlantide.Lib.Fallible

/-! # What the interpreter has handlers for

The grammar the interpreter can run: the expressions it evaluates and the targets it binds, where a
starred element stands only among a call's arguments or in a target and a slice only in a subscript,
and statements whose control flow stays in the loop and the function it belongs to. The node types
that may still turn up without a handler are a parameter. What the validating pass accepts is of
that grammar, up to starred elements and slices that stand elsewhere. -/

namespace Atlantide.Lang

open Fallible

/-- What is evaluated of an argument. -/
def Expr.unstarred : Expr → Expr
  | .starred value => value
  | node => node

/-- What is evaluated of what stands in the brackets of a subscript. -/
def Expr.sliceParts : Expr → List Expr
  | .slice lower upper step => lower.toList ++ upper.toList ++ step.toList
  | node => [node]

/-- The node types that values can be bound to. -/
def Expr.isTarget : Expr → Bool
  | .name _ | .tuple _ | .list _ | .starred _ | .subscript _ _ => true
  | _ => false

def Generator.target : Generator → Expr
  | .mk target _ _ => target

def Generator.iter : Generator → Expr
  | .mk _ iter _ => iter

def Generator.ifs : Generator → List Expr
  | .mk _ _ ifs => ifs

mutual

/-- Evaluation meets no node type without a handler but tame ones. -/
inductive Evaluable (tame : NodeKind → Prop) : Expr → Prop
  | constant (value : Literal) : Evaluable tame (.constant value)
  | name (ident : String) : Evaluable tame (.name ident)
  | joinedStr {values : List Expr} (hvalues : ∀ value ∈ values, Evaluable tame value) :
    Evaluable tame (.joinedStr values)
  | formattedValue {value : Expr} {conversion : Option Conversion} {formatSpec : Option Expr}
    (hvalue : Evaluable tame value) (hspec : ∀ spec ∈ formatSpec, Evaluable tame spec) :
    Evaluable tame (.formattedValue value conversion formatSpec)
  | binOp {left right : Expr} {op : Operator} (hleft : Evaluable tame left)
    (hright : Evaluable tame right) : Evaluable tame (.binOp left op right)
  | unaryOp {op : UnaryOperator} {operand : Expr} (hoperand : Evaluable tame operand) :
    Evaluable tame (.unaryOp op operand)
  | boolOp {op : BoolOperator} {values : List Expr}
    (hvalues : ∀ value ∈ values, Evaluable tame value) : Evaluable tame (.boolOp op values)
  | compare {left : Expr} {ops : List CmpOperator} {comparators : List Expr}
    (hleft : Evaluable tame left) (hothers : ∀ other ∈ comparators, Evaluable tame other) :
    Evaluable tame (.compare left ops comparators)
  | ifExp {test body orelse : Expr} (htest : Evaluable tame test) (hbody : Evaluable tame body)
    (horelse : Evaluable tame orelse) : Evaluable tame (.ifExp test body orelse)
  | call {func : Expr} {args : List Expr} {keywords : List (Option String)} {values : List Expr}
    (hfunc : Evaluable tame func) (hargs : ∀ arg ∈ args, Evaluable tame arg.unstarred)
    (hvalues : ∀ value ∈ values, Evaluable tame value) :
    Evaluable tame (.call func args keywords values)
  | attribute {value : Expr} {attr : String} (hvalue : Evaluable tame value) :
    Evaluable tame (.attribute value attr)
  | subscript {value slice : Expr} (hvalue : Evaluable tame value)
    (hslice : ∀ part ∈ slice.sliceParts, Evaluable tame part) :
    Evaluable tame (.subscript value slice)
  | list {elts : List Expr} (helts : ∀ elt ∈ elts, Evaluable tame elt) :
    Evaluable tame (.list elts)
  | tuple {elts : List Expr} (helts : ∀ elt ∈ elts, Evaluable tame elt) :
    Evaluable tame (.tuple elts)
  | set {elts : List Expr} (helts : ∀ elt ∈ elts, Evaluable tame elt) : Evaluable tame (.set elts)
  | dict {keys : List (Option Expr)} {values : List Expr}
    (hkeys : ∀ key, some key ∈ keys → Evaluable tame key)
    (hvalues : ∀ value ∈ values, Evaluable tame value) : Evaluable tame (.dict keys values)
  | listComp {elt : Expr} {generators : List Generator} (helt : Evaluable tame elt)
    (htargets : ∀ generator ∈ generators, Bindable tame generator.target)
    (hiters : ∀ generator ∈ generators, Evaluable tame generator.iter)
    (hifs : ∀ generator ∈ generators, ∀ cond ∈ generator.ifs, Evaluable tame cond) :
    Evaluable tame (.listComp elt generators)
  | setComp {elt : Expr} {generators : List Generator} (helt : Evaluable tame elt)
    (htargets : ∀ generator ∈ generators, Bindable tame generator.target)
    (hiters : ∀ generator ∈ generators, Evaluable tame generator.iter)
    (hifs : ∀ generator ∈ generators, ∀ cond ∈ generator.ifs, Evaluable tame cond) :
    Evaluable tame (.setComp elt generators)
  | generatorExp {elt : Expr} {generators : List Generator} (helt : Evaluable tame elt)
    (htargets : ∀ generator ∈ generators, Bindable tame generator.target)
    (hiters : ∀ generator ∈ generators, Evaluable tame generator.iter)
    (hifs : ∀ generator ∈ generators, ∀ cond ∈ generator.ifs, Evaluable tame cond) :
    Evaluable tame (.generatorExp elt generators)
  | dictComp {key value : Expr} {generators : List Generator} (hkey : Evaluable tame key)
    (hvalue : Evaluable tame value)
    (htargets : ∀ generator ∈ generators, Bindable tame generator.target)
    (hiters : ∀ generator ∈ generators, Evaluable tame generator.iter)
    (hifs : ∀ generator ∈ generators, ∀ cond ∈ generator.ifs, Evaluable tame cond) :
    Evaluable tame (.dictComp key value generators)
  | lambda {params : Params} {defaults : List Expr} {body : Expr}
    (hdefaults : ∀ default ∈ defaults, Evaluable tame default) (hbody : Evaluable tame body) :
    Evaluable tame (.lambda params defaults body)
  | slice {lower upper step : Option Expr} (htame : tame .slice)
    (hparts : ∀ part ∈ lower.toList ++ upper.toList ++ step.toList, Evaluable tame part) :
    Evaluable tame (.slice lower upper step)
  | starred {value : Expr} (htame : tame .starred) (hvalue : Evaluable tame value) :
    Evaluable tame (.starred value)
  | other {kind : ForeignExpr} (htame : tame (.foreignExpr kind)) : Evaluable tame (.other kind)

/-- Binding meets no node type without a handler but tame ones; what cannot be bound to is
refused. -/
inductive Bindable (tame : NodeKind → Prop) : Expr → Prop
  | name (ident : String) : Bindable tame (.name ident)
  | tuple {elts : List Expr} (helts : ∀ elt ∈ elts, Bindable tame elt) : Bindable tame (.tuple elts)
  | list {elts : List Expr} (helts : ∀ elt ∈ elts, Bindable tame elt) : Bindable tame (.list elts)
  | starred {value : Expr} (hvalue : Bindable tame value) : Bindable tame (.starred value)
  | subscript {value slice : Expr} (hvalue : Evaluable tame value)
    (hslice : ∀ part ∈ slice.sliceParts, Evaluable tame part) :
    Bindable tame (.subscript value slice)
  | refused {node : Expr} (hother : node.isTarget = false) : Bindable tame node

end

variable {tame : NodeKind → Prop}

theorem Evaluable.unstarred {node : Expr} (hnode : Evaluable tame node) :
    Evaluable tame node.unstarred := by
  cases hnode with
  | starred _ hvalue => exact hvalue
  | _ => constructor <;> assumption

theorem Evaluable.sliceParts {node : Expr} (hnode : Evaluable tame node) :
    ∀ part ∈ node.sliceParts, Evaluable tame part := by
  intro part hpart
  cases hnode with
  | slice _ hparts => exact hparts part hpart
  | _ =>
    cases List.mem_singleton.mp hpart
    constructor <;> assumption

/-- A statement that evaluates and binds so, and whose control flow stays where it belongs. -/
inductive Runnable (tame : NodeKind → Prop) : (inFunction inLoop : Bool) → Stmt → Prop
  | functionDef {inFunction inLoop : Bool} {name : String} {params : Params}
    {annotations defaults : List Expr} {body : List Stmt} {decorators : List Expr}
    {typeParams : Bool} (hdefaults : ∀ default ∈ defaults, Evaluable tame default)
    (hbody : ∀ stmt ∈ body, Runnable tame true false stmt) :
    Runnable tame inFunction inLoop
      (.functionDef name params annotations defaults body decorators typeParams)
  | returnStmt {inLoop : Bool} {value : Option Expr}
    (hvalue : ∀ node ∈ value, Evaluable tame node) : Runnable tame true inLoop (.returnStmt value)
  | assign {inFunction inLoop : Bool} {targets : List Expr} {value : Expr}
    (htargets : ∀ target ∈ targets, Bindable tame target) (hvalue : Evaluable tame value) :
    Runnable tame inFunction inLoop (.assign targets value)
  | annAssign {inFunction inLoop simple : Bool} {target annotation : Expr} {value : Option Expr}
    (htarget : Bindable tame target) (hvalue : ∀ node ∈ value, Evaluable tame node) :
    Runnable tame inFunction inLoop (.annAssign target annotation value simple)
  | augAssign {inFunction inLoop : Bool} {target value : Expr} {op : Operator}
    (htarget : Bindable tame target) (hvalue : Evaluable tame value) :
    Runnable tame inFunction inLoop (.augAssign target op value)
  | exprStmt {inFunction inLoop : Bool} {value : Expr} (hvalue : Evaluable tame value) :
    Runnable tame inFunction inLoop (.exprStmt value)
  | ifStmt {inFunction inLoop : Bool} {test : Expr} {body orelse : List Stmt}
    (htest : Evaluable tame test) (hbody : ∀ stmt ∈ body, Runnable tame inFunction inLoop stmt)
    (horelse : ∀ stmt ∈ orelse, Runnable tame inFunction inLoop stmt) :
    Runnable tame inFunction inLoop (.ifStmt test body orelse)
  | forStmt {inFunction inLoop : Bool} {target iter : Expr} {body orelse : List Stmt}
    (htarget : Bindable tame target) (hiter : Evaluable tame iter)
    (hbody : ∀ stmt ∈ body, Runnable tame inFunction true stmt)
    (horelse : ∀ stmt ∈ orelse, Runnable tame inFunction inLoop stmt) :
    Runnable tame inFunction inLoop (.forStmt target iter body orelse)
  | passStmt {inFunction inLoop : Bool} : Runnable tame inFunction inLoop .passStmt
  | breakStmt {inFunction : Bool} : Runnable tame inFunction true .breakStmt
  | continueStmt {inFunction : Bool} : Runnable tame inFunction true .continueStmt
  | importStmt {inFunction inLoop : Bool} (names : List String) :
    Runnable tame inFunction inLoop (.importStmt names)
  | importFrom {inFunction inLoop : Bool} (module : Option String)
    (names : List (String × Option String)) (level : Nat) :
    Runnable tame inFunction inLoop (.importFrom module names level)
  | withStmt {inFunction inLoop : Bool} {items : List (Expr × Option Expr)} {body : List Stmt}
    (hcontexts : ∀ item ∈ items, Evaluable tame item.1)
    (htargets : ∀ item ∈ items, ∀ target ∈ item.2, Bindable tame target)
    (hbody : ∀ stmt ∈ body, Runnable tame inFunction inLoop stmt) :
    Runnable tame inFunction inLoop (.withStmt items body)
  | classDef {inFunction inLoop : Bool} {name : String} {bases : List Expr}
    {keywords decorated typeParams : Bool} {body : List Stmt}
    (hbases : ∀ base ∈ bases, Evaluable tame base)
    (hfields : ∀ (target annotation value : Expr) (simple : Bool),
      .annAssign target annotation (some value) simple ∈ body → Evaluable tame value) :
    Runnable tame inFunction inLoop (.classDef name bases keywords decorated typeParams body)
  | other {inFunction inLoop : Bool} {kind : ForeignStmt} (htame : tame (.foreignStmt kind)) :
    Runnable tame inFunction inLoop (.other kind)

/-! ## What is accepted -/

/-- The node types that are accepted in places where there is no handler for them. -/
def Misplaced (kind : NodeKind) : Prop := kind = .starred ∨ kind = .slice

namespace Rules

variable {rules : Rules}

mutual

theorem readable_of_visit (node : Expr) (hok : rules.visit node = .ok ()) :
    Evaluable Misplaced node ∧ Bindable Misplaced node := by
  cases node with
  | constant value => exact ⟨.constant value, .refused rfl⟩
  | name ident => exact ⟨.name ident, .name ident⟩
  | joinedStr values =>
    rw [visit] at hok
    exact ⟨.joinedStr fun value hmem => (readable_of_visitAll values hok value hmem).1,
      .refused rfl⟩
  | formattedValue value conversion spec =>
    rw [visit] at hok
    obtain ⟨_, hvalue, hspec⟩ := bind_eq_ok hok
    exact ⟨.formattedValue (readable_of_visit value hvalue).1
      (readable_of_visitOption spec hspec), .refused rfl⟩
  | binOp left op right =>
    rw [visit] at hok
    obtain ⟨_, hleft, hok⟩ := bind_eq_ok hok
    obtain ⟨_, _, hright⟩ := bind_eq_ok hok
    exact ⟨.binOp (readable_of_visit left hleft).1 (readable_of_visit right hright).1,
      .refused rfl⟩
  | unaryOp op operand =>
    rw [visit] at hok
    exact ⟨.unaryOp (readable_of_visit operand hok).1, .refused rfl⟩
  | boolOp op values =>
    rw [visit] at hok
    exact ⟨.boolOp fun value hmem => (readable_of_visitAll values hok value hmem).1, .refused rfl⟩
  | compare left ops comparators =>
    rw [visit] at hok
    obtain ⟨_, hleft, hothers⟩ := bind_eq_ok hok
    exact ⟨.compare (readable_of_visit left hleft).1 fun other hmem =>
      (readable_of_visitAll comparators hothers other hmem).1, .refused rfl⟩
  | ifExp test body orelse =>
    rw [visit] at hok
    obtain ⟨_, htest, hok⟩ := bind_eq_ok hok
    obtain ⟨_, hbody, horelse⟩ := bind_eq_ok hok
    exact ⟨.ifExp (readable_of_visit test htest).1 (readable_of_visit body hbody).1
      (readable_of_visit orelse horelse).1, .refused rfl⟩
  | call func args keywords values =>
    rw [visit] at hok
    obtain ⟨_, hfunc, hok⟩ := bind_eq_ok hok
    obtain ⟨_, hargs, hvalues⟩ := bind_eq_ok hok
    exact ⟨.call (readable_of_visit func hfunc).1
      (fun arg hmem => (readable_of_visitAll args hargs arg hmem).1.unstarred)
      fun value hmem => (readable_of_visitAll values hvalues value hmem).1, .refused rfl⟩
  | «attribute» value attr =>
    rw [visit] at hok
    split at hok
    · cases hok
    · exact ⟨.attribute (readable_of_visit value hok).1, .refused rfl⟩
  | subscript value slice =>
    rw [visit] at hok
    obtain ⟨_, hvalue, hslice⟩ := bind_eq_ok hok
    have hvalue := (readable_of_visit value hvalue).1
    have hslice := (readable_of_visit slice hslice).1.sliceParts
    exact ⟨.subscript hvalue hslice, .subscript hvalue hslice⟩
  | slice lower upper step =>
    rw [visit] at hok
    obtain ⟨_, hlower, hok⟩ := bind_eq_ok hok
    obtain ⟨_, hupper, hstep⟩ := bind_eq_ok hok
    refine ⟨.slice (.inr rfl) fun part hpart => ?_, .refused rfl⟩
    simp only [List.mem_append, Option.mem_toList] at hpart
    rcases hpart with (hpart | hpart) | hpart
    · exact readable_of_visitOption lower hlower part hpart
    · exact readable_of_visitOption upper hupper part hpart
    · exact readable_of_visitOption step hstep part hpart
  | list elts =>
    rw [visit] at hok
    exact ⟨.list fun elt hmem => (readable_of_visitAll elts hok elt hmem).1,
      .list fun elt hmem => (readable_of_visitAll elts hok elt hmem).2⟩
  | tuple elts =>
    rw [visit] at hok
    exact ⟨.tuple fun elt hmem => (readable_of_visitAll elts hok elt hmem).1,
      .tuple fun elt hmem => (readable_of_visitAll elts hok elt hmem).2⟩
  | set elts =>
    rw [visit] at hok
    exact ⟨.set fun elt hmem => (readable_of_visitAll elts hok elt hmem).1, .refused rfl⟩
  | dict keys values =>
    rw [visit] at hok
    obtain ⟨_, hkeys, hvalues⟩ := bind_eq_ok hok
    exact ⟨.dict (readable_of_visitKeys keys hkeys) fun value hmem =>
      (readable_of_visitAll values hvalues value hmem).1, .refused rfl⟩
  | listComp elt generators =>
    rw [visit] at hok
    obtain ⟨_, helt, hgenerators⟩ := bind_eq_ok hok
    have hread := readable_of_visitGenerators generators hgenerators
    exact ⟨.listComp (readable_of_visit elt helt).1 (fun made hmem => (hread made hmem).1)
      (fun made hmem => (hread made hmem).2.1) fun made hmem => (hread made hmem).2.2,
      .refused rfl⟩
  | setComp elt generators =>
    rw [visit] at hok
    obtain ⟨_, helt, hgenerators⟩ := bind_eq_ok hok
    have hread := readable_of_visitGenerators generators hgenerators
    exact ⟨.setComp (readable_of_visit elt helt).1 (fun made hmem => (hread made hmem).1)
      (fun made hmem => (hread made hmem).2.1) fun made hmem => (hread made hmem).2.2,
      .refused rfl⟩
  | generatorExp elt generators =>
    rw [visit] at hok
    obtain ⟨_, helt, hgenerators⟩ := bind_eq_ok hok
    have hread := readable_of_visitGenerators generators hgenerators
    exact ⟨.generatorExp (readable_of_visit elt helt).1 (fun made hmem => (hread made hmem).1)
      (fun made hmem => (hread made hmem).2.1) fun made hmem => (hread made hmem).2.2,
      .refused rfl⟩
  | dictComp key value generators =>
    rw [visit] at hok
    obtain ⟨_, hkey, hok⟩ := bind_eq_ok hok
    obtain ⟨_, hvalue, hgenerators⟩ := bind_eq_ok hok
    have hread := readable_of_visitGenerators generators hgenerators
    exact ⟨.dictComp (readable_of_visit key hkey).1 (readable_of_visit value hvalue).1
      (fun made hmem => (hread made hmem).1) (fun made hmem => (hread made hmem).2.1)
      fun made hmem => (hread made hmem).2.2, .refused rfl⟩
  | lambda params defaults body =>
    rw [visit] at hok
    obtain ⟨_, _, hok⟩ := bind_eq_ok hok
    obtain ⟨_, hdefaults, hbody⟩ := bind_eq_ok hok
    exact ⟨.lambda (fun default hmem => (readable_of_visitAll defaults hdefaults default hmem).1)
      (readable_of_visit body hbody).1, .refused rfl⟩
  | starred value =>
    rw [visit] at hok
    have hvalue := readable_of_visit value hok
    exact ⟨.starred (.inl rfl) hvalue.1, .starred hvalue.2⟩
  | other kind =>
    rw [visit] at hok
    cases hok

theorem readable_of_visitAll (nodes : List Expr) (hok : rules.visitAll nodes = .ok ()) :
    ∀ node ∈ nodes, Evaluable Misplaced node ∧ Bindable Misplaced node := by
  cases nodes with
  | nil => exact fun _ hmem => absurd hmem List.not_mem_nil
  | cons node rest =>
    rw [visitAll] at hok
    obtain ⟨_, hnode, hrest⟩ := bind_eq_ok hok
    intro other hmem
    rcases List.mem_cons.mp hmem with hsame | hmem
    · rw [hsame]
      exact readable_of_visit node hnode
    · exact readable_of_visitAll rest hrest other hmem

theorem readable_of_visitOption (node : Option Expr) (hok : rules.visitOption node = .ok ()) :
    ∀ found ∈ node, Evaluable Misplaced found := by
  cases node with
  | none => exact fun _ hmem => absurd hmem (Option.not_mem_none _)
  | some node =>
    rw [visitOption] at hok
    intro found hfound
    rw [← Option.mem_some.mp hfound]
    exact (readable_of_visit node hok).1

theorem readable_of_visitKeys (keys : List (Option Expr)) (hok : rules.visitKeys keys = .ok ()) :
    ∀ key, some key ∈ keys → Evaluable Misplaced key := by
  cases keys with
  | nil => exact fun _ hmem => absurd hmem List.not_mem_nil
  | cons first rest =>
    rw [visitKeys] at hok
    obtain ⟨_, hfirst, hrest⟩ := bind_eq_ok hok
    intro key hmem
    rcases List.mem_cons.mp hmem with hsame | hmem
    · exact readable_of_visitOption first hfirst key hsame.symm
    · exact readable_of_visitKeys rest hrest key hmem

theorem readable_of_visitGenerators (generators : List Generator)
    (hok : rules.visitGenerators generators = .ok ()) :
    ∀ generator ∈ generators, Bindable Misplaced generator.target ∧
      Evaluable Misplaced generator.iter ∧ ∀ cond ∈ generator.ifs, Evaluable Misplaced cond := by
  cases generators with
  | nil => exact fun _ hmem => absurd hmem List.not_mem_nil
  | cons first rest =>
    rw [visitGenerators] at hok
    obtain ⟨_, hfirst, hrest⟩ := bind_eq_ok hok
    intro generator hmem
    rcases List.mem_cons.mp hmem with hsame | hmem
    · rw [hsame]
      exact readable_of_visitGenerator first hfirst
    · exact readable_of_visitGenerators rest hrest generator hmem

theorem readable_of_visitGenerator (generator : Generator)
    (hok : rules.visitGenerator generator = .ok ()) :
    Bindable Misplaced generator.target ∧
      Evaluable Misplaced generator.iter ∧ ∀ cond ∈ generator.ifs, Evaluable Misplaced cond := by
  cases generator with
  | mk target iter ifs =>
    rw [visitGenerator] at hok
    obtain ⟨_, htarget, hok⟩ := bind_eq_ok hok
    obtain ⟨_, hiter, hifs⟩ := bind_eq_ok hok
    exact ⟨(readable_of_visit target htarget).2, (readable_of_visit iter hiter).1,
      fun cond hmem => (readable_of_visitAll ifs hifs cond hmem).1⟩

end

/-- The defaults of an accepted schema's fields are ordinary expressions. -/
theorem readable_of_checkSchemaBody {owner : String} {first : Bool} {seen : List String}
    {body : List Stmt} (hok : rules.checkSchemaBody owner first seen body = .ok ()) :
    ∀ (target annotation value : Expr) (simple : Bool),
      .annAssign target annotation (some value) simple ∈ body → Evaluable Misplaced value := by
  induction body generalizing first seen with
  | nil => exact fun _ _ _ _ hmem => absurd hmem List.not_mem_nil
  | cons stmt rest ih =>
    intro target annotation value simple hmem
    rcases List.mem_cons.mp hmem with hsame | hlater
    · rw [← hsame, checkSchemaBody] at hok
      obtain ⟨_, hfield, _⟩ := bind_eq_ok hok
      unfold checkField at hfield
      split at hfield
      · split at hfield
        · cases hfield
        · split at hfield
          · cases hfield
          · split at hfield
            · cases hfield
            · obtain ⟨_, _, hfield⟩ := bind_eq_ok hfield
              obtain ⟨_, hvalue, _⟩ := bind_eq_ok hfield
              exact readable_of_visitOption _ hvalue value rfl
      · cases hfield
    · unfold checkSchemaBody at hok
      split at hok
      · exact ih hok target annotation value simple hlater
      · obtain ⟨_, _, hok⟩ := bind_eq_ok hok
        exact ih hok target annotation value simple hlater
      · split at hok
        · exact ih hok target annotation value simple hlater
        · cases hok

theorem readable_of_visitItems {items : List (Expr × Option Expr)}
    (hok : rules.visitItems items = .ok ()) :
    ∀ item ∈ items, Evaluable Misplaced item.1 ∧
      ∀ target ∈ item.2, Bindable Misplaced target := by
  intro item hmem
  obtain ⟨_, hcontext, htarget⟩ := bind_eq_ok (forM_eq_ok hok hmem)
  refine ⟨(readable_of_visit item.1 hcontext).1, fun target hsome => ?_⟩
  rw [Option.mem_def.mp hsome, visitOption] at htarget
  exact (readable_of_visit target htarget).2

mutual

theorem runnable_of_visitStmt (place : Place) (stmt : Stmt)
    (hok : rules.visitStmt place stmt = .ok ()) :
    Runnable Misplaced place.inFunction place.inLoop stmt := by
  cases stmt with
  | functionDef name params annotations defaults body decorators typeParams =>
    rw [visitStmt] at hok
    split at hok
    · cases hok
    · split at hok
      · cases hok
      · obtain ⟨_, _, hok⟩ := bind_eq_ok hok
        obtain ⟨_, _, hok⟩ := bind_eq_ok hok
        obtain ⟨_, hdefaults, hbody⟩ := bind_eq_ok hok
        exact .functionDef (fun default hmem =>
          (readable_of_visitAll defaults hdefaults default hmem).1)
          (runnable_of_visitBody _ body hbody)
  | returnStmt value =>
    rw [visitStmt] at hok
    split at hok
    next hfunction =>
      rw [hfunction]
      exact .returnStmt (readable_of_visitOption value hok)
    next => cases hok
  | assign targets value =>
    rw [visitStmt] at hok
    obtain ⟨_, htargets, hvalue⟩ := bind_eq_ok hok
    exact .assign (fun target hmem => (readable_of_visitAll targets htargets target hmem).2)
      (readable_of_visit value hvalue).1
  | annAssign target annotation value simple =>
    rw [visitStmt] at hok
    obtain ⟨_, htarget, hok⟩ := bind_eq_ok hok
    obtain ⟨_, _, hvalue⟩ := bind_eq_ok hok
    exact .annAssign (readable_of_visit target htarget).2 (readable_of_visitOption value hvalue)
  | augAssign target op value =>
    rw [visitStmt] at hok
    obtain ⟨_, htarget, hok⟩ := bind_eq_ok hok
    obtain ⟨_, _, hvalue⟩ := bind_eq_ok hok
    exact .augAssign (readable_of_visit target htarget).2 (readable_of_visit value hvalue).1
  | exprStmt value =>
    rw [visitStmt] at hok
    exact .exprStmt (readable_of_visit value hok).1
  | ifStmt test body orelse =>
    rw [visitStmt] at hok
    obtain ⟨_, htest, hok⟩ := bind_eq_ok hok
    obtain ⟨_, hbody, horelse⟩ := bind_eq_ok hok
    exact .ifStmt (readable_of_visit test htest).1
      (runnable_of_visitBody { place with toplevel := false } body hbody)
      (runnable_of_visitBody { place with toplevel := false } orelse horelse)
  | forStmt target iter body orelse =>
    rw [visitStmt] at hok
    obtain ⟨_, htarget, hok⟩ := bind_eq_ok hok
    obtain ⟨_, hiter, hok⟩ := bind_eq_ok hok
    obtain ⟨_, hbody, horelse⟩ := bind_eq_ok hok
    exact .forStmt (readable_of_visit target htarget).2 (readable_of_visit iter hiter).1
      (runnable_of_visitBody { place with toplevel := false, inLoop := true } body hbody)
      (runnable_of_visitBody { place with toplevel := false } orelse horelse)
  | passStmt => exact .passStmt
  | breakStmt =>
    rw [visitStmt] at hok
    split at hok
    next hloop =>
      rw [hloop]
      exact .breakStmt
    next => cases hok
  | continueStmt =>
    rw [visitStmt] at hok
    split at hok
    next hloop =>
      rw [hloop]
      exact .continueStmt
    next => cases hok
  | importStmt names => exact .importStmt names
  | importFrom module names level => exact .importFrom module names level
  | withStmt items body =>
    rw [visitStmt] at hok
    obtain ⟨_, hitems, hbody⟩ := bind_eq_ok hok
    have hread := readable_of_visitItems hitems
    exact .withStmt (fun item hmem => (hread item hmem).1) (fun item hmem => (hread item hmem).2)
      (runnable_of_visitBody { place with toplevel := false } body hbody)
  | classDef name bases keywords decorated typeParams body =>
    rw [visitStmt] at hok
    unfold visitClassDef at hok
    split at hok
    · cases hok
    · split at hok
      · cases hok
      · split at hok
        · cases hok
        · split at hok
          · cases hok
          · split at hok
            · cases hok
            next hbases =>
              refine .classDef (fun base hmem => ?_) (readable_of_checkSchemaBody hok)
              unfold inheritsEnvSchema at hbases
              split at hbases
              next ident =>
                rw [List.mem_singleton.mp hmem]
                exact .name ident
              next => exact absurd (fun hfalse => by cases hfalse) hbases
  | other kind =>
    rw [visitStmt] at hok
    cases hok

theorem runnable_of_visitBody (place : Place) (body : List Stmt)
    (hok : rules.visitBody place body = .ok ()) :
    ∀ stmt ∈ body, Runnable Misplaced place.inFunction place.inLoop stmt := by
  cases body with
  | nil => exact fun _ hmem => absurd hmem List.not_mem_nil
  | cons stmt rest =>
    rw [visitBody] at hok
    obtain ⟨_, hstmt, hrest⟩ := bind_eq_ok hok
    intro other hmem
    rcases List.mem_cons.mp hmem with hsame | hmem
    · rw [hsame]
      exact runnable_of_visitStmt place stmt hstmt
    · exact runnable_of_visitBody place rest hrest other hmem

end

/-- **What is accepted can be run**, up to starred elements and slices in other places than the
interpreter expects them. -/
theorem runnable_of_validate {program : Program} (hok : rules.validate program = .ok ()) :
    ∀ stmt ∈ program, Runnable Misplaced false false stmt :=
  runnable_of_visitBody { toplevel := true } program hok

end Rules

end Atlantide.Lang
