import Guion.Number

namespace Guion

inductive NodeKind where
  | program
  | varDecl
  | funcParam
  | funcDecl
  | block
  | ifStmt
  | whileStmt
  | forStmt
  | returnStmt
  | printStmt
  | breakStmt
  | continueStmt
  | exprStmt
  | assign
  | logicalOp
  | binaryOp
  | unaryOp
  | literal
  | ident
  | call
  | readExpr
deriving DecidableEq, Repr

/-- A stored program or part of one. The fields of a node stand in the order of its kind. -/
inductive Tree where
  | null
  | bool (b : Bool)
  | int (n : Int)
  | float (x : Float)
  | text (s : String)
  | list (items : List Tree)
  | node (kind : NodeKind) (line column : Tree) (fields : List Tree)

namespace NodeKind

def all : List NodeKind :=
  [.program, .varDecl, .funcParam, .funcDecl, .block, .ifStmt, .whileStmt, .forStmt, .returnStmt,
    .printStmt, .breakStmt, .continueStmt, .exprStmt, .assign, .logicalOp, .binaryOp, .unaryOp,
    .literal, .ident, .call, .readExpr]

def name : NodeKind → String
  | program => "Program"
  | varDecl => "VarDecl"
  | funcParam => "FuncParam"
  | funcDecl => "FuncDecl"
  | block => "Block"
  | ifStmt => "IfStmt"
  | whileStmt => "WhileStmt"
  | forStmt => "ForStmt"
  | returnStmt => "ReturnStmt"
  | printStmt => "PrintStmt"
  | breakStmt => "BreakStmt"
  | continueStmt => "ContinueStmt"
  | exprStmt => "ExprStmt"
  | assign => "Assign"
  | logicalOp => "LogicalOp"
  | binaryOp => "BinaryOp"
  | unaryOp => "UnaryOp"
  | literal => "Literal"
  | ident => "Ident"
  | call => "Call"
  | readExpr => "ReadExpr"

def ofName? (name : String) : Option NodeKind :=
  all.find? (·.name == name)

/-- The fields of a node. One that may be left out is marked, and is then `null`. -/
def fields : NodeKind → List (String × Bool)
  | program => [("body", false)]
  | varDecl => [("type_name", false), ("name", false), ("initializer", true)]
  | funcParam => [("type_name", false), ("name", false)]
  | funcDecl => [("name", false), ("params", false), ("body", false)]
  | block => [("statements", false)]
  | ifStmt => [("condition", false), ("then_branch", false), ("else_branch", true)]
  | whileStmt => [("condition", false), ("body", false)]
  | forStmt => [("init", false), ("condition", false), ("update", false), ("body", false)]
  | returnStmt => [("value", true)]
  | printStmt => [("value", false)]
  | breakStmt => []
  | continueStmt => []
  | exprStmt => [("expr", false)]
  | assign => [("name", false), ("value", false)]
  | logicalOp => [("op", false), ("left", false), ("right", false)]
  | binaryOp => [("op", false), ("left", false), ("right", false)]
  | unaryOp => [("op", false), ("operand", false)]
  | literal => [("value", false), ("literal_type", false)]
  | ident => [("name", false)]
  | call => [("name", false), ("args", false)]
  | readExpr => []

end NodeKind

namespace Tree

def kindName : Tree → String
  | null => "NoneType"
  | bool _ => "bool"
  | int _ => "int"
  | float _ => "float"
  | text _ => "str"
  | list _ => "list"
  | node kind _ _ _ => kind.name

def number? : Tree → Option Number
  | int n => some (.int n)
  | bool b => some (.truth b)
  | float x => some (.float x)
  | _ => none

def ofNumber : Number → Tree
  | .int n => int n
  | .truth b => bool b
  | .float x => float x

def isTrue : Tree → Bool
  | null => false
  | bool b => b
  | int n => n != 0
  | float x => x != 0.0
  | text s => s != ""
  | list items => !items.isEmpty
  | node _ _ _ _ => true

def isPlain : Tree → Bool
  | list _ => false
  | node _ _ _ _ => false
  | _ => true

end Tree

end Guion
