import Mathlib.Data.List.Basic

/-! # Atlas-lang syntax trees

The node types of Python's parser, as far as a config module can hold them once it is read. Node
types the language leaves out altogether keep their name and lose their children: the validator
rejects them before it looks further. Positions, type comments and expression contexts are not
kept. -/

namespace Atlantide.Lang

inductive Literal where
  | none
  | bool (value : Bool)
  | int (value : Int)
  | float (text : String)
  | complex (text : String)
  | str (value : String)
  | bytes (value : List UInt8)
  | ellipsis
  deriving DecidableEq

inductive Operator where
  | add | sub | mult | matMult | div | mod | pow | lShift | rShift | bitOr | bitXor | bitAnd
  | floorDiv
  deriving DecidableEq

inductive UnaryOperator where
  | invert | not | uAdd | uSub
  deriving DecidableEq

inductive BoolOperator where
  | and | or
  deriving DecidableEq

inductive CmpOperator where
  | eq | notEq | lt | ltE | gt | gtE | is | isNot | isIn | notIn
  deriving DecidableEq

/-- The `!s`, `!r` and `!a` of a replacement field. -/
inductive Conversion where
  | str | repr | ascii
  deriving DecidableEq

/-- The statement types the language leaves out. -/
inductive ForeignStmt where
  | whileLoop | tryBlock | tryStar | raiseStmt | asyncFunctionDef | asyncFor | asyncWith
  | deleteStmt | globalStmt | nonlocalStmt | assertStmt | matchStmt | typeAlias
  deriving DecidableEq

/-- The expression types the language leaves out. -/
inductive ForeignExpr where
  | namedExpr | await | yieldExpr | yieldFrom | templateStr | interpolation
  deriving DecidableEq

/-- A node type's name. -/
inductive NodeKind where
  | functionDef | returnStmt | assign | annAssign | augAssign | exprStmt | ifStmt | forStmt
  | passStmt | breakStmt | continueStmt | importStmt | importFrom | alias | withStmt | withitem
  | classDef
  | constant | name | formattedValue | joinedStr | binOp | unaryOp | boolOp | compare | ifExp
  | call | keyword | attribute | subscript | slice | list | tuple | set | dict | listComp
  | setComp | dictComp | generatorExp | comprehension | lambda | starred | arguments | arg
  | operator (op : Operator)
  | foreignStmt (kind : ForeignStmt)
  | foreignExpr (kind : ForeignExpr)
  deriving DecidableEq

/-- A parameter list's names. A parameter's annotation and default stand beside it in the function
that owns it. -/
structure Params where
  posonlyargs : List String := []
  args : List String := []
  vararg : Option String := none
  kwonlyargs : List String := []
  kwarg : Option String := none
  deriving DecidableEq

mutual

inductive Expr : Type where
  | constant (value : Literal)
  | name (ident : String)
  | joinedStr (values : List Expr)
  | formattedValue (value : Expr) (conversion : Option Conversion) (formatSpec : Option Expr)
  | binOp (left : Expr) (op : Operator) (right : Expr)
  | unaryOp (op : UnaryOperator) (operand : Expr)
  | boolOp (op : BoolOperator) (values : List Expr)
  | compare (left : Expr) (ops : List CmpOperator) (comparators : List Expr)
  | ifExp (test body orelse : Expr)
  | call (func : Expr) (args : List Expr) (keywords : List (Option String)) (values : List Expr)
  | attribute (value : Expr) (attr : String)
  | subscript (value slice : Expr)
  | slice (lower upper step : Option Expr)
  | list (elts : List Expr)
  | tuple (elts : List Expr)
  | set (elts : List Expr)
  | dict (keys : List (Option Expr)) (values : List Expr)
  | listComp (elt : Expr) (generators : List Generator)
  | setComp (elt : Expr) (generators : List Generator)
  | generatorExp (elt : Expr) (generators : List Generator)
  | dictComp (key value : Expr) (generators : List Generator)
  | lambda (params : Params) (defaults : List Expr) (body : Expr)
  | starred (value : Expr)
  | other (kind : ForeignExpr)

/-- One `for target in iter if …` of a comprehension. -/
inductive Generator : Type where
  | mk (target iter : Expr) (ifs : List Expr)

end

inductive Stmt : Type where
  | functionDef (name : String) (params : Params) (annotations defaults : List Expr)
      (body : List Stmt) (decorators : List Expr) (typeParams : Bool)
  | returnStmt (value : Option Expr)
  | assign (targets : List Expr) (value : Expr)
  | annAssign (target annotation : Expr) (value : Option Expr) (simple : Bool)
  | augAssign (target : Expr) (op : Operator) (value : Expr)
  | exprStmt (value : Expr)
  | ifStmt (test : Expr) (body orelse : List Stmt)
  | forStmt (target iter : Expr) (body orelse : List Stmt)
  | passStmt
  | breakStmt
  | continueStmt
  | importStmt (names : List String)
  | importFrom (module : Option String) (names : List (String × Option String)) (level : Nat)
  | withStmt (items : List (Expr × Option Expr)) (body : List Stmt)
  | classDef (name : String) (bases : List Expr) (keywords decorated typeParams : Bool)
      (body : List Stmt)
  | other (kind : ForeignStmt)

/-- A module: its statements in order. -/
abbrev Program := List Stmt

def Expr.kind : Expr → NodeKind
  | .constant _ => .constant
  | .name _ => .name
  | .joinedStr _ => .joinedStr
  | .formattedValue .. => .formattedValue
  | .binOp .. => .binOp
  | .unaryOp .. => .unaryOp
  | .boolOp .. => .boolOp
  | .compare .. => .compare
  | .ifExp .. => .ifExp
  | .call .. => .call
  | .attribute .. => .attribute
  | .subscript .. => .subscript
  | .slice .. => .slice
  | .list _ => .list
  | .tuple _ => .tuple
  | .set _ => .set
  | .dict .. => .dict
  | .listComp .. => .listComp
  | .setComp .. => .setComp
  | .generatorExp .. => .generatorExp
  | .dictComp .. => .dictComp
  | .lambda .. => .lambda
  | .starred _ => .starred
  | .other kind => .foreignExpr kind

def Stmt.kind : Stmt → NodeKind
  | .functionDef .. => .functionDef
  | .returnStmt _ => .returnStmt
  | .assign .. => .assign
  | .annAssign .. => .annAssign
  | .augAssign .. => .augAssign
  | .exprStmt _ => .exprStmt
  | .ifStmt .. => .ifStmt
  | .forStmt .. => .forStmt
  | .passStmt => .passStmt
  | .breakStmt => .breakStmt
  | .continueStmt => .continueStmt
  | .importStmt _ => .importStmt
  | .importFrom .. => .importFrom
  | .withStmt .. => .withStmt
  | .classDef .. => .classDef
  | .other kind => .foreignStmt kind

end Atlantide.Lang
