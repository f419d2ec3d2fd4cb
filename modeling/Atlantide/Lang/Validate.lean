import Atlantide.Lang.Ast

/-! # The validating pass

What config may write, decided on the tree before anything runs: the node types, the names and
attributes, the imports, the one shape a class may have, and where `break`, `continue` and `return`
may stand. A rejection is the first one the visitor meets. -/

namespace Atlantide.Lang

/-- Why a program is rejected. -/
inductive Rejection where
  | construct (kind : NodeKind)
  | dunderName (name : String)
  | forbiddenName (name : String)
  | dunderAttribute (name : String)
  | privateAttribute (name : String)
  | forbiddenAttribute (name : String)
  | nestedClass (name : String)
  | decoratedClass (name : String)
  | classKeywords (name : String)
  | classTypeParams (name : String)
  | notEnvSchema (name : String)
  | schemaBody (kind : NodeKind)
  | fieldTarget (owner : String)
  | privateField (field owner : String)
  | reservedField (field owner : String)
  | repeatedField (field owner : String)
  | annotationCombined (field owner : String)
  | annotationParameterised (field owner : String)
  | annotationUnsupported (field owner : String)
  | decoratedFunction (name : String)
  | functionTypeParams (name : String)
  | vararg (param : String) (function : Option String)
  | kwarg (param : String) (function : Option String)
  | keywordOnly (function : Option String)
  | positionalOnly (function : Option String)
  | breakOutsideLoop
  | continueOutsideLoop
  | returnOutsideFunction
  | importNotAllowed (module : String)
  | importFromNotAllowed (module : String)
  | privateImport (name module : String)
  | engineImport (name module : String)
  deriving DecidableEq

/-! ## Imports -/

/-- The modules that installed plugins add to what config may import. -/
structure LanguageSurface where
  extra : List String := []

def allowedImports : List String :=
  ["atlantide.core", "atlantide.policy", "atlantide.providers", "atlantide.components"]

/-- Modules below an allowed one that reach the outside or the engine's state. -/
def forbiddenImportModules : List String :=
  ["atlantide.components.fetch", "atlantide.components.lock", "atlantide.components.source",
    "atlantide.core.logging", "atlantide.core.plugin", "atlantide.core.tuning",
    "atlantide.providers.loader", "atlantide.providers.local.paths", "atlantide.providers.aws.config"]

def forbiddenCoreNames : List String :=
  ["active_registry", "collecting", "ResourceRegistry", "inline_stack_outputs", "selecting",
    "current_selection", "EnvSelection", "ProviderRegistry", "check_compatible", "parse_semver",
    "Context", "Provider"]

def forbiddenImportSegments : List String := ["provider", "handlers"]

/-- The module itself, or one below it. -/
def isBelow (module ancestor : String) : Bool :=
  module = ancestor || module.startsWith (ancestor ++ ".")

def isAtlantideModule (module : String) : Bool := isBelow module "atlantide"

/-- `import_allowed`. -/
def LanguageSurface.importAllowed (surface : LanguageSurface) : Option String → Bool
  | none => false
  | some module =>
    if module = "" then false
    else if module = "atlantide" then true
    else if ¬ (allowedImports ++ surface.extra).any (isBelow module) then false
    else if forbiddenImportModules.any (isBelow module) then false
    else
      let segments := module.splitOn "."
      !segments.any (·.startsWith "_") && !segments.any (· ∈ forbiddenImportSegments)

/-! ## Names and attributes -/

def forbiddenNames : List String :=
  ["eval", "exec", "compile", "open", "__import__", "globals", "locals", "vars", "getattr",
    "setattr", "delattr", "hasattr", "breakpoint", "input", "memoryview", "type", "super", "object"]

def forbiddenAttrs : List String := ["format", "format_map"]

/-- Pydantic's model API. -/
def modelApiAttrs : List String :=
  ["construct", "from_orm", "model_computed_fields", "model_config", "model_construct", "model_copy",
    "model_dump", "model_dump_json", "model_extra", "model_fields", "model_fields_set",
    "model_json_schema", "model_parametrized_name", "model_post_init", "model_rebuild",
    "model_validate", "model_validate_json", "model_validate_strings", "parse_file", "parse_obj",
    "parse_raw", "schema_json", "update_forward_refs"]

/-- The internals listed by name; the types of the running Python add theirs. -/
def internalAttrs : List String :=
  ["gi_frame", "gi_code", "gi_yieldfrom", "cr_frame", "cr_code", "cr_await", "ag_frame", "ag_code",
    "ag_await", "f_globals", "f_locals", "f_builtins", "f_back", "f_code", "tb_frame", "tb_next",
    "cell_contents"]

/-- What a run of the validator is given: what plugins add, and the attributes that generators,
frames and the like have in the Python it runs on. -/
structure Rules where
  surface : LanguageSurface := {}
  typeAttrs : List String := []

/-- `attribute_rejection`. -/
def Rules.attributeRejection (rules : Rules) (name : String) : Option Rejection :=
  if name.startsWith "__" then some (.dunderAttribute name)
  else if name.startsWith "_" then some (.privateAttribute name)
  else if name ∈ forbiddenAttrs ++ modelApiAttrs ++ internalAttrs ++ rules.typeAttrs then
    some (.forbiddenAttribute name)
  else none

/-- `visit_Name`. -/
def visitName (name : String) : Except Rejection Unit :=
  if name.startsWith "__" then .error (.dunderName name)
  else if name ∈ forbiddenNames then .error (.forbiddenName name)
  else .ok ()

/-- Every operator is allowed but the matrix product. -/
def visitOperator : Operator → Except Rejection Unit
  | .matMult => .error (.construct (.operator .matMult))
  | _ => .ok ()

/-- `_check_params`: only plain positional parameters. -/
def checkParams (params : Params) (function : Option String) : Except Rejection Unit :=
  match params.vararg, params.kwarg with
  | some param, _ => .error (.vararg param function)
  | none, some param => .error (.kwarg param function)
  | none, none =>
    if params.kwonlyargs ≠ [] then .error (.keywordOnly function)
    else if params.posonlyargs ≠ [] then .error (.positionalOnly function)
    else .ok ()

/-! ## Expressions -/

mutual

/-- `visit`, for an expression. -/
def Rules.visit (rules : Rules) : Expr → Except Rejection Unit
  | .constant _ => .ok ()
  | .name ident => visitName ident
  | .joinedStr values => rules.visitAll values
  | .formattedValue value _ spec => do
    rules.visit value
    rules.visitOption spec
  | .binOp left op right => do
    rules.visit left
    visitOperator op
    rules.visit right
  | .unaryOp _ operand => rules.visit operand
  | .boolOp _ values => rules.visitAll values
  | .compare left _ comparators => do
    rules.visit left
    rules.visitAll comparators
  | .ifExp test body orelse => do
    rules.visit test
    rules.visit body
    rules.visit orelse
  | .call func args _ values => do
    rules.visit func
    rules.visitAll args
    rules.visitAll values
  | .attribute value attr =>
    match rules.attributeRejection attr with
    | some rejection => .error rejection
    | none => rules.visit value
  | .subscript value slice => do
    rules.visit value
    rules.visit slice
  | .slice lower upper step => do
    rules.visitOption lower
    rules.visitOption upper
    rules.visitOption step
  | .list elts => rules.visitAll elts
  | .tuple elts => rules.visitAll elts
  | .set elts => rules.visitAll elts
  | .dict keys values => do
    rules.visitKeys keys
    rules.visitAll values
  | .listComp elt generators => do
    rules.visit elt
    rules.visitGenerators generators
  | .setComp elt generators => do
    rules.visit elt
    rules.visitGenerators generators
  | .generatorExp elt generators => do
    rules.visit elt
    rules.visitGenerators generators
  | .dictComp key value generators => do
    rules.visit key
    rules.visit value
    rules.visitGenerators generators
  | .lambda params defaults body => do
    checkParams params none
    rules.visitAll defaults
    rules.visit body
  | .starred value => rules.visit value
  | .other kind => .error (.construct (.foreignExpr kind))

def Rules.visitAll (rules : Rules) : List Expr → Except Rejection Unit
  | [] => .ok ()
  | node :: rest => do
    rules.visit node
    rules.visitAll rest

def Rules.visitOption (rules : Rules) : Option Expr → Except Rejection Unit
  | none => .ok ()
  | some node => rules.visit node

def Rules.visitKeys (rules : Rules) : List (Option Expr) → Except Rejection Unit
  | [] => .ok ()
  | key :: rest => do
    rules.visitOption key
    rules.visitKeys rest

def Rules.visitGenerators (rules : Rules) : List Generator → Except Rejection Unit
  | [] => .ok ()
  | generator :: rest => do
    rules.visitGenerator generator
    rules.visitGenerators rest

def Rules.visitGenerator (rules : Rules) : Generator → Except Rejection Unit
  | .mk target iter ifs => do
    rules.visit target
    rules.visit iter
    rules.visitAll ifs

end

/-! ## Schemas -/

/-- `ENV_SCHEMA_BASE`. -/
def envSchemaBase : String := "EnvSchema"

def supportedTypes : List String := ["str", "int", "float", "bool", "list", "dict"]

def reservedFieldNames : List String := ["name", "get", "as_dict"]

def isDocstring : Stmt → Bool
  | .exprStmt (.constant (.str _)) => true
  | _ => false

/-- Goes by the spelling only. -/
def inheritsEnvSchema : List Expr → Bool
  | [.name ident] => ident = envSchemaBase
  | _ => false

/-- `check_annotation`: a supported type, or one of them `| None`. -/
def checkAnnotation (owner field : String) : Expr → Except Rejection Unit
  | .binOp left .bitOr right =>
    match right with
    | .constant .none => checkAnnotation owner field left
    | _ => .error (.annotationCombined field owner)
  | .subscript _ _ => .error (.annotationParameterised field owner)
  | .name ident =>
    if ident ∈ supportedTypes then .ok () else .error (.annotationUnsupported field owner)
  | _ => .error (.annotationUnsupported field owner)

/-- `_check_field`, with the fields seen so far; a default is an ordinary expression. -/
def Rules.checkField (rules : Rules) (owner : String) (seen : List String) (target annotation : Expr)
    (value : Option Expr) (simple : Bool) : Except Rejection (List String) :=
  match target, simple with
  | .name field, true => do
    if field.startsWith "_" then .error (.privateField field owner)
    else if field ∈ reservedFieldNames then .error (.reservedField field owner)
    else if field ∈ seen then .error (.repeatedField field owner)
    else
      checkAnnotation owner field annotation
      rules.visitOption value
      .ok (field :: seen)
  | _, _ => .error (.fieldTarget owner)

/-- `_check_schema_body`; a docstring may only come first. -/
def Rules.checkSchemaBody (rules : Rules) (owner : String) :
    Bool → List String → List Stmt → Except Rejection Unit
  | _, _, [] => .ok ()
  | first, seen, stmt :: rest =>
    match stmt with
    | .passStmt => rules.checkSchemaBody owner false seen rest
    | .annAssign target annotation value simple => do
      let seen ← rules.checkField owner seen target annotation value simple
      rules.checkSchemaBody owner false seen rest
    | stmt =>
      if first && isDocstring stmt then rules.checkSchemaBody owner false seen rest
      else .error (.schemaBody stmt.kind)

/-- `visit_ClassDef`: the one class shape there is, at module level. -/
def Rules.visitClassDef (rules : Rules) (toplevel : Bool) (name : String) (bases : List Expr)
    (keywords decorated typeParams : Bool) (body : List Stmt) : Except Rejection Unit :=
  if ¬ toplevel then .error (.nestedClass name)
  else if decorated then .error (.decoratedClass name)
  else if keywords then .error (.classKeywords name)
  else if typeParams then .error (.classTypeParams name)
  else if ¬ inheritsEnvSchema bases then .error (.notEnvSchema name)
  else rules.checkSchemaBody name true [] body

/-! ## Statements -/

/-- `visit_Import`. -/
def Rules.visitImport (rules : Rules) (names : List String) : Except Rejection Unit :=
  names.forM fun name =>
    if rules.surface.importAllowed (some name) then .ok () else .error (.importNotAllowed name)

/-- `visit_ImportFrom`. -/
def Rules.visitImportFrom (rules : Rules) (module : Option String)
    (names : List (String × Option String)) (level : Nat) : Except Rejection Unit :=
  match module with
  | none => .error (.importFromNotAllowed ".")
  | some path =>
    if level ≠ 0 ∨ ¬ rules.surface.importAllowed (some path) then
      .error (.importFromNotAllowed (if path = "" then "." else path))
    else
      names.forM fun name =>
        if name.1.startsWith "_" then .error (.privateImport name.1 path)
        else if isAtlantideModule path ∧ name.1 ∈ forbiddenCoreNames then
          .error (.engineImport name.1 path)
        else .ok ()

def Rules.visitItems (rules : Rules) (items : List (Expr × Option Expr)) :
    Except Rejection Unit :=
  items.forM fun item => do
    rules.visit item.1
    rules.visitOption item.2

/-- Where a statement stands: at the top level of the module, in a function, in a loop of that
function or of the module. -/
structure Place where
  toplevel : Bool := false
  inFunction : Bool := false
  inLoop : Bool := false

mutual

/-- `visit`, for a statement. A function's body starts outside every loop; a loop's `else` runs after
it. -/
def Rules.visitStmt (rules : Rules) (place : Place) : Stmt → Except Rejection Unit
  | .functionDef name params annotations defaults body decorators typeParams =>
    if ¬ decorators.isEmpty then .error (.decoratedFunction name)
    else if typeParams then .error (.functionTypeParams name)
    else do
      checkParams params (some name)
      rules.visitAll annotations
      rules.visitAll defaults
      rules.visitBody { inFunction := true } body
  | .returnStmt value =>
    if place.inFunction then rules.visitOption value else .error .returnOutsideFunction
  | .assign targets value => do
    rules.visitAll targets
    rules.visit value
  | .annAssign target annotation value _ => do
    rules.visit target
    rules.visit annotation
    rules.visitOption value
  | .augAssign target op value => do
    rules.visit target
    visitOperator op
    rules.visit value
  | .exprStmt value => rules.visit value
  | .ifStmt test body orelse => do
    rules.visit test
    rules.visitBody { place with toplevel := false } body
    rules.visitBody { place with toplevel := false } orelse
  | .forStmt target iter body orelse => do
    rules.visit target
    rules.visit iter
    rules.visitBody { place with toplevel := false, inLoop := true } body
    rules.visitBody { place with toplevel := false } orelse
  | .passStmt => .ok ()
  | .breakStmt => if place.inLoop then .ok () else .error .breakOutsideLoop
  | .continueStmt => if place.inLoop then .ok () else .error .continueOutsideLoop
  | .importStmt names => rules.visitImport names
  | .importFrom module names level => rules.visitImportFrom module names level
  | .withStmt items body => do
    rules.visitItems items
    rules.visitBody { place with toplevel := false } body
  | .classDef name bases keywords decorated typeParams body =>
    rules.visitClassDef place.toplevel name bases keywords decorated typeParams body
  | .other kind => .error (.construct (.foreignStmt kind))

def Rules.visitBody (rules : Rules) (place : Place) : List Stmt → Except Rejection Unit
  | [] => .ok ()
  | stmt :: rest => do
    rules.visitStmt place stmt
    rules.visitBody place rest

end

/-- `validate_source`, for source that parses. -/
def Rules.validate (rules : Rules) (program : Program) : Except Rejection Unit :=
  rules.visitBody { toplevel := true } program

end Atlantide.Lang
